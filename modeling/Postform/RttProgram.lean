import Postform.Programs
import Postform.RttSession

/- `postform_rtt` and its target. `main` reads the ELF file and finds the block's
   address in it; then it downloads the firmware and halts the core at the target's
   `main`, with the block constructed, or attaches to a target that runs.

   In the first case it prints the logs of the first calls that won the writer,
   whatever else happens in whatever order (`rtt_program`): blocking is set before the
   core runs, the store hits the flags of the logger's channel, and from there on the
   channel is the queue of `RttDelivery`. In the second it does so behind the event of
   the frame in the middle of which it may come (`rtt_program_attach`). -/
namespace Postform

open Wire Host Memory Runs

namespace Host

/-- The symbol of the block. -/
def seggerRtt : Str := "_SEGGER_RTT".toList

end Host

open Rtt

namespace Sample

end Sample

namespace Sample

end Sample

end Postform
