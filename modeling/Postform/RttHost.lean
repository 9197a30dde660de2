import Postform.RttControlBlock

/- postform_rtt and the memory of its target. `configureRttMode` works out where
   the flags of a channel are from its own mirror of the target's structures and
   stores the mode there. It does so in `usize`, which wraps in a release build
   and panics in a debug build.

   `main` is the calls that it makes one after another. The first that fails
   ends it. Whatever else the target and the probe do to the memory happens
   between the two calls of `configureRttMode`, which hold the session. -/
namespace Postform.RttHost

open Layout Memory Rtt

/-! `lib.rs`. -/

/-- `RttHeader`, which is `repr(C)`. -/
def rttHeader : Fields HeaderField :=
  [(.id, uint8.array 16), (.maxUpChannels, uint32), (.maxDownChannels, uint32)]

/-- `RttChannel`. -/
def rttChannel : Fields ChannelField :=
  [(.name, uint32), (.buffer, uint32), (.size, uint32), (.write, uint32), (.read, uint32), (.flags, uint32)]

def headerSize : Nat := (struct rttHeader).size
def channelSize : Nat := (struct rttChannel).size

inductive RttMode where
  | nonBlocking | blocking
  deriving DecidableEq, Repr

/-- `mode as u32`. -/
def RttMode.value : RttMode → Nat
  | .nonBlocking => 1
  | .blocking => 2

/-- The machine postform_rtt runs on, and whether the build checks its
arithmetic. -/
structure Host where
  usizeBits : Nat
  bits : usizeBits = 32 ∨ usizeBits = 64
  overflowChecks : Bool

/-- A release build on a 64-bit machine. -/
def release64 : Host := ⟨64, .inr rfl, false⟩

/-- A sum or product in `usize`; `none` is a panic. -/
def Host.usize (host : Host) (n : Nat) : Option Nat :=
  if host.overflowChecks ∧ 2 ^ host.usizeBits ≤ n then none else some (n % 2 ^ host.usizeBits)

/-- `mode_flags_addr`. -/
def modeFlagsAddr (host : Host) (rttAddr channelIdx : Nat) : Option Nat := do
  let header ← host.usize (rttAddr % 2 ^ host.usizeBits + headerSize)
  let channels ← host.usize (channelSize * channelIdx)
  let channel ← host.usize (header + channels)
  host.usize (channel + offsetOf rttChannel .flags)

/-- What a call of the probe returns, and the memory it leaves. -/
structure Reply where
  ok : Bool
  memory : Contents

/-- `write_word_32` of probe-rs. `Link` is what the connection does while the
call lasts. -/
abbrev WriteWord32 (Link : Type) := Link → Contents → Nat → Nat → Reply

/-- What probe-rs promises: a write that succeeds has stored the word, least
significant byte first; one that fails may have, but nothing else. A word that
is writable can be written over a connection that works, and any other is
refused. -/
structure Documented {Link : Type} (writeWord32 : WriteWord32 Link) (writable : Nat → Prop) : Prop where
  stored : ∀ {link memory address value}, (writeWord32 link memory address value).ok = true →
    (writeWord32 link memory address value).memory = storeWord 4 memory address value
  outside : ∀ {link memory address value x}, x < address ∨ address + 4 ≤ x →
    (writeWord32 link memory address value).memory x = memory x
  works : ∀ {address}, writable address → ∃ link, ∀ memory value, (writeWord32 link memory address value).ok = true
  refused : ∀ {address}, ¬writable address → ∀ link memory value, writeWord32 link memory address value = ⟨false, memory⟩

/-- A probe whose connection always works. -/
def steadyProbe (writable : Nat → Prop) [DecidablePred writable] : WriteWord32 Unit :=
  fun _ memory address value =>
    if writable address then ⟨true, storeWord 4 memory address value⟩ else ⟨false, memory⟩

theorem steadyProbe_documented (writable : Nat → Prop) [DecidablePred writable] :
    Documented (steadyProbe writable) writable := by
  refine ⟨?_, ?_, ?_, ?_⟩
  · intro _ memory address value hok
    unfold steadyProbe at hok ⊢
    split at hok
    next hw => rw [if_pos hw]
    · cases hok
  · intro _ memory address value x hx
    unfold steadyProbe
    split
    · exact storeWord_outside hx
    · rfl
  · intro address hw
    refine ⟨(), fun memory value => ?_⟩
    unfold steadyProbe
    rw [if_pos hw]
  · intro address hw _ memory value
    exact if_neg hw

inductive Outcome where
  | ok | err | panicked
  deriving DecidableEq, Repr

section
variable {Link : Type} (writeWord32 : WriteWord32 Link) (host : Host)

/-- `configure_rtt_mode`, once it has the core. -/
def configureRttMode (link : Link) (memory : Contents) (rttAddr channelIdx : Nat) (mode : RttMode) : Outcome × Contents :=
  match modeFlagsAddr host rttAddr channelIdx with
  | none => (.panicked, memory)
  | some address =>
    let reply := writeWord32 link memory address mode.value
    (if reply.ok then .ok else .err, reply.memory)

/-! `main.rs`. -/

/-- The calls of `main` that touch the target. -/
inductive Call where
  | downloadFirmware | configureRttMode (mode : RttMode) | attachRtt | runCore | disableCdebugen | spawnGdb
  | readChannel
  deriving DecidableEq, Repr

structure Opts where
  attach : Bool
  gdbServer : Bool
  channel : Option (Fin (2 ^ host.usizeBits))

variable {host}

/-- `opts.channel.unwrap_or(0)`. -/
def Opts.rttChannel (opts : Opts host) : Nat :=
  match opts.channel with
  | none => 0
  | some channel => channel

def Opts.beforeConfigure (opts : Opts host) : List Call := if opts.attach then [] else [.downloadFirmware]

def Opts.afterConfigure (opts : Opts host) : List Call :=
  .attachRtt :: (if opts.attach then [] else [.runCore]) ++
    [if opts.gdbServer then .spawnGdb else .disableCdebugen, .readChannel]

def main (opts : Opts host) : List Call :=
  opts.beforeConfigure ++ .configureRttMode .blocking :: opts.afterConfigure ++ [.configureRttMode .nonBlocking]

/-- The memory, the calls `main` has left, and the up channels `attach_rtt`
found. -/
structure State where
  memory : Contents
  calls : List Call
  upChannels : List Nat

def State.initial (opts : Opts host) (memory : Contents) : State := ⟨memory, main opts, []⟩

inductive Label (Link : Type) where
  | configure (link : Link)
  | returns (upChannels : List Nat)
  | read
  | fails
  | others (memory : Contents)

variable (opts : Opts host) (block : ControlBlock)

/-- `readChannel` reads while the channel is there, and returns when the user
closes it or there is no such channel. -/
def step (s : State) : Label Link → Option State
  | .configure link =>
    match s.calls with
    | .configureRttMode mode :: rest =>
      let (outcome, memory) := configureRttMode writeWord32 host link s.memory block.address opts.rttChannel mode
      some { s with memory := memory, calls := if outcome = .ok then rest else [] }
    | _ => none
  | .returns upChannels =>
    match s.calls with
    | [] | .configureRttMode _ :: _ => none
    | .attachRtt :: rest => some { s with calls := rest, upChannels := upChannels }
    | _ :: rest => some { s with calls := rest }
  | .read =>
    match s.calls with
    | .readChannel :: _ => if opts.rttChannel ∈ s.upChannels then some s else none
    | _ => none
  | .fails => if s.calls = [] then none else some { s with calls := [] }
  | .others memory => some { s with memory := memory }

def Steps (s : State) (a : Label Link) (t : State) : Prop := step writeWord32 opts block s a = some t

end

end Postform.RttHost
