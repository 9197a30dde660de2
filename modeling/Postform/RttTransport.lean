import Mathlib.Logic.Function.Basic
import Postform.Lib.Ring
import Postform.Lib.Runs

/- The RTT transport. The target writes bytes into a ring in its memory and
   publishes how far it got; the host reads the ring through the debug probe.
   A step is one load or store of either side. The target's program counter is
   where it is in `write` or `commit`: it loads the flags once, then, in blocking
   mode, waits while the next offset is the host's, publishing what it has each
   time round. The host loads the two offsets, copies bytes up to the write
   offset and stores the read offset it got to; it may also store the flags.

   `passed` and `copied` are histories: the bytes passed to `write`, and the
   bytes the host has copied. -/
namespace Postform.Rtt

open Function

/-- The modes of a channel. -/
inductive Flags where
  | blockIfFull | noBlockTrim
  deriving DecidableEq, Repr

/-- Where the target is: between calls, at one of the loads and stores of
`write(value)`, or at the store of a `commit` call. -/
inductive TargetPc where
  | idle
  | loadFlags (value : UInt8)
  | loadRead (value : UInt8)
  | publish (value : UInt8)
  | storeByte (value : UInt8)
  | storeWrite
  deriving DecidableEq, Repr

/-- Where the host is: idle, or copying from the offset `pos` up to the write
offset it has seen. -/
inductive HostPc where
  | idle
  | copying (seen pos : Nat)
  deriving DecidableEq, Repr

/-- The channel, the transport's own write offset, and both sides. -/
structure Machine where
  buffer : Nat → UInt8
  write : Nat
  read : Nat
  flags : Flags
  mWritePtr : Nat
  target : TargetPc
  host : HostPc
  passed : List UInt8
  copied : List UInt8

inductive Label where
  | callWrite (value : UInt8)
  | callCommit
  | target
  | hostLoad
  | hostCopy
  | hostStore
  | setFlags (flags : Flags)
  deriving DecidableEq, Repr

/-- The steps of the host's reader. -/
def Label.isHost : Label → Bool
  | .hostLoad | .hostCopy | .hostStore => true
  | _ => false

/-- A channel whose offsets are both `start`, and a transport made for it. -/
def Machine.initial (buffer : Nat → UInt8) (start : Nat) (flags : Flags) : Machine :=
  ⟨buffer, start, start, flags, start, .idle, .idle, [], []⟩

/-- `getNextWritePtr`, on the 32-bit offset. -/
def getNextWritePtr (size mWritePtr : Nat) : Nat :=
  let writePtr := (mWritePtr + 1) % 2 ^ 32
  if size ≤ writePtr then writePtr - size else writePtr

/-- The host's next offset. -/
def nextReadPtr (size pos : Nat) : Nat := if size ≤ pos + 1 then pos + 1 - size else pos + 1

section
variable (size : Nat)

/-- The next load or store of the target's call. -/
def targetStep (s : Machine) : Option Machine :=
  match s.target with
  | .idle => none
  | .loadFlags value =>
    if s.flags = .blockIfFull then some { s with target := .loadRead value }
    else some { s with target := .storeByte value }
  | .loadRead value =>
    if s.read = getNextWritePtr size s.mWritePtr then some { s with target := .publish value }
    else some { s with target := .storeByte value }
  | .publish value => some { s with write := s.mWritePtr, target := .loadRead value }
  | .storeByte value =>
    some { s with
      buffer := update s.buffer s.mWritePtr value
      mWritePtr := getNextWritePtr size s.mWritePtr
      target := .idle }
  | .storeWrite => some { s with write := s.mWritePtr, target := .idle }

def step (s : Machine) : Label → Option Machine
  | .callWrite value =>
    if s.target = .idle then some { s with target := .loadFlags value, passed := s.passed ++ [value] } else none
  | .callCommit => if s.target = .idle then some { s with target := .storeWrite } else none
  | .target => targetStep size s
  | .hostLoad => if s.host = .idle then some { s with host := .copying s.write s.read } else none
  | .hostCopy =>
    match s.host with
    | .idle => none
    | .copying seen pos =>
      if pos = seen then none
      else some { s with
        copied := s.copied ++ [s.buffer pos]
        host := .copying seen (nextReadPtr size pos) }
  | .hostStore =>
    match s.host with
    | .idle => none
    | .copying _ pos => some { s with read := pos, host := .idle }
  | .setFlags flags => some { s with flags := flags }

/-- The system as a relation. -/
def Steps (s : Machine) (a : Label) (t : Machine) : Prop := step size s a = some t

/-- The target's own steps, `n` of them or until its call is over. -/
def ownSteps : Nat → Machine → Machine
  | 0, s => s
  | n + 1, s =>
    match targetStep size s with
    | none => s
    | some t => ownSteps n t

end

end Postform.Rtt
