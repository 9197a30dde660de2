import Postform.RttConfigure
import Postform.RttTarget

/- `postform_rtt` beside its target. `main` has read the ELF file and makes the calls
   of `RttHost.main`; `readChannel` is the loop that reads the channel and feeds the
   decoder. A panic of the decoder or a call that fails ends `main`. The target runs
   unless `runCore` is still to come.

   Behind the call that sets blocking the channel is a queue (`phase_configured`), so
   that the decoder is fed a beginning of what the logger sent from there on
   (`Inv.step`). Where `main` was left, the target may overwrite its ring, but no one
   reads it. -/
namespace Postform

open Wire Host Memory Runs

namespace Host

/-- `let mut buffer = [0u8; 1024]`. -/
def readSize : Nat := 1024

end Host

open Rtt

/-- The target, the calls `main` has left and the channels it found, how many of the
bytes the host has copied were fed, the decoder's buffer and what was printed. -/
structure Session (ι : Type) (p : Platform) (b : ControlBlock) where
  target : Target ι p b
  calls : List RttHost.Call
  upChannels : List Nat
  fed : Nat
  decoder : Option Bytes
  printed : List Event

inductive SessionAction (ι : Type) (b : ControlBlock) (Link : Type) where
  | call (x : RttHost.Label Link)
  | read (label : Label)
  | target (a : TargetAction ι b)

variable {ι : Type} [DecidableEq ι] {p : Platform} {b : ControlBlock} {host : RttHost.Host} {Link : Type}

namespace Session

/-- `main`'s side. -/
def main (s : Session ι p b) : RttHost.State := ⟨s.target.block.memory, s.calls, s.upChannels⟩

def withMain (s : Session ι p b) (h : RttHost.State) : Session ι p b :=
  { s with
    target := { s.target with block := { s.target.block with memory := h.memory } }
    calls := h.calls
    upChannels := h.upChannels }

/-- The steps that `RttHost.step` has for the calls themselves. -/
def isCall : RttHost.Label Link → Bool
  | .configure _ | .returns _ | .fails => true
  | .read | .others _ => false

section
variable (crates : Crates) (elf : ElfMetadata) (writeWord32 : RttHost.WriteWord32 Link) (opts : RttHost.Opts host)
  (c : Channels b) (i : Fin b.upChannels)

/-- `feed_and_do` on what the read of channel `j` has copied. -/
def feed (j : Fin b.upChannels) (s : Session ι p b) : Session ι p b :=
  let copied := (s.target.block.port j).copied
  match s.decoder with
  | none => s
  | some rcobsMsgBuffer =>
    if s.fed < copied.length then
      let (events, decoder) := feedAndDo crates elf rcobsMsgBuffer (copied.drop s.fed)
      { s with
        fed := copied.length
        printed := s.printed ++ events
        decoder := decoder
        calls := if decoder.isSome then s.calls else [] }
    else s

/-- One step. `i` is the channel of the logger's transport. -/
def step (s : Session ι p b) : SessionAction ι b Link → Option (Session ι p b)
  | .call x => if isCall x then (RttHost.step writeWord32 opts b s.main x).map s.withMain else none
  | .read label =>
    if hchannel : opts.rttChannel < b.upChannels then
      let j : Fin b.upChannels := ⟨opts.rttChannel, hchannel⟩
      if s.calls.head? = some .readChannel ∧ opts.rttChannel ∈ s.upChannels ∧ label.isHost ∧
          (label = .hostCopy → (s.target.block.port j).copied.length < s.fed + readSize) then
        (c.step s.target.block (.port j label)).map fun block =>
          let s := { s with target := { s.target with block := block } }
          if label = .hostStore then s.feed crates elf j else s
      else none
    else none
  | .target a => if .runCore ∈ s.calls then none else (s.target.step c i a).map fun target => { s with target := target }

def Steps (s : Session ι p b) (a : SessionAction ι b Link) (t : Session ι p b) : Prop :=
  s.step crates elf writeWord32 opts c i a = some t

end

/-- The calls behind the first of `configureRttMode`. -/
def rest (opts : RttHost.Opts host) : List RttHost.Call := opts.afterConfigure ++ [.configureRttMode .nonBlocking]

/-- The core is halted at `main` of the target. -/
structure AtMain (opts : RttHost.Opts host) (c : Channels b) (program : ι → List (List (Argument p)))
    (s : Session ι p b) : Prop where
  constructed : c.Constructed s.target.block
  logger : s.target.logger = System.initial program
  calls : RttHost.main opts = .downloadFirmware :: s.calls
  fed : s.fed = 0
  decoder : s.decoder = some []
  printed : s.printed = []

section
variable {crates : Crates} {elf : ElfMetadata} {writeWord32 : RttHost.WriteWord32 Link} {opts : RttHost.Opts host}
  {c : Channels b} {i : Fin b.upChannels} {program : ι → List (List (Argument p))} {s t : Session ι p b}

/-! The calls of `main`. -/

omit [DecidableEq ι] in
theorem AtMain.halted (h : AtMain opts c program s) : .runCore ∈ rest opts := by
  have hcalls := h.calls
  unfold RttHost.main RttHost.Opts.beforeConfigure at hcalls
  unfold rest RttHost.Opts.afterConfigure
  split at hcalls
  · simp at hcalls
  · next hattach =>
    rw [if_neg hattach]
    simp

/-- The last call of the rest is the only one of `configureRttMode`. -/
theorem configure_last {mode : RttHost.RttMode} {calls : List RttHost.Call}
    (h : RttHost.Call.configureRttMode mode :: calls <:+ rest opts) : calls = [] := by
  obtain ⟨before, hbefore⟩ := h
  unfold rest at hbefore
  rcases List.eq_nil_or_concat calls with hnil | ⟨front, last, hlast⟩
  · exact hnil
  · exfalso
    subst hlast
    have hfront : before ++ .configureRttMode mode :: front = opts.afterConfigure := by
      have hsplit : (before ++ .configureRttMode mode :: front) ++ [last] =
          opts.afterConfigure ++ [.configureRttMode .nonBlocking] := by simpa using hbefore
      exact (List.append_inj' hsplit rfl).1
    apply RttHost.afterConfigure_others opts mode
    rw [← hfront]
    simp

/-! The invariant. -/

/-- Where `main` is: before the first call of `configureRttMode`, with the core
halted; behind it, with the channel a queue since `origin`; or at its end. -/
inductive Phase (opts : RttHost.Opts host) (c : Channels b) (i : Fin b.upChannels)
    (program : ι → List (List (Argument p))) (origin : RttSystem ι p) (before : Bytes) (s : Session ι p b) : Prop where
  | halted (hcalls : s.calls = .configureRttMode .blocking :: rest opts) (hhalted : .runCore ∈ rest opts)
      (hblock : c.Inv s.target.block) (horigin : s.target.blocking c i = origin)
  | running (hcalls : s.calls <:+ rest opts) (hblock : c.Inv s.target.block)
      (hattached : RttSystem.Attached (c.ring i) program origin before (s.target.ring c i))
  | ended (hcalls : s.calls = [])

/-- What the host has fed of what it has copied since `origin`. -/
def fedBytes (i : Fin b.upChannels) (origin : RttSystem ι p) (s : Session ι p b) : Bytes :=
  ((s.target.block.port i).copied.take s.fed).drop origin.channel.copied.length

/-- What the decoder was fed is a beginning of what the logger sent behind the bytes
`before`. -/
structure Feeds (crates : Crates) (elf : ElfMetadata) (i : Fin b.upChannels) (program : ι → List (List (Argument p)))
    (origin : RttSystem ι p) (before : Bytes) (s : Session ι p b) : Prop where
  logger : System.Inv program s.target.logger
  won : origin.logger.won <+: s.target.logger.won
  copied : ∃ copied, (s.target.block.port i).copied = origin.channel.copied ++ copied ∧
    copied <+: (SerialWriter.opBytes s.target.logger.received).drop before.length
  fed : origin.channel.copied.length ≤ s.fed ∧ s.fed ≤ (s.target.block.port i).copied.length
  decoded : feedAndDo crates elf [] (s.fedBytes i origin) = (s.printed, s.decoder)

/-- The invariant of a run. -/
structure Inv (crates : Crates) (elf : ElfMetadata) (opts : RttHost.Opts host) (c : Channels b) (i : Fin b.upChannels)
    (program : ι → List (List (Argument p))) (origin : RttSystem ι p) (before : Bytes) (s : Session ι p b) : Prop
    extends Feeds crates elf i program origin before s where
  phase : Phase opts c i program origin before s

variable {origin : RttSystem ι p} {before : Bytes}

theorem Feeds.bytes (h : Feeds crates elf i program origin before s) :
    s.fedBytes i origin <+: (SerialWriter.opBytes s.target.logger.received).drop before.length := by
  obtain ⟨copied, hcopied, hbegins⟩ := h.copied
  have hfed := (List.take_prefix s.fed (s.target.block.port i).copied).drop origin.channel.copied.length
  rw [hcopied, List.drop_left, ← hcopied] at hfed
  exact hfed.trans hbegins

theorem Feeds.withMain (h : Feeds crates elf i program origin before s) (main : RttHost.State) :
    Feeds crates elf i program origin before (s.withMain main) :=
  ⟨h.logger, h.won, h.copied, h.fed, h.decoded⟩

theorem Phase.running_of_read (h : Phase opts c i program origin before s) (hread : s.calls.head? = some .readChannel) :
    s.calls <:+ rest opts ∧ c.Inv s.target.block ∧
      RttSystem.Attached (c.ring i) program origin before (s.target.ring c i) := by
  cases h with
  | halted hcalls =>
    rw [hcalls] at hread
    cases hread
  | running hcalls hblock hattached => exact ⟨hcalls, hblock, hattached⟩
  | ended hcalls =>
    rw [hcalls] at hread
    cases hread

omit [DecidableEq ι] in
theorem fedBytes_grows (h : s.fed ≤ (s.target.block.port i).copied.length) {block : Rtt.System b}
    (hgrows : (s.target.block.port i).copied <+: (block.port i).copied) :
    Session.fedBytes i origin { s with target := { s.target with block := block } } = s.fedBytes i origin := by
  obtain ⟨more, hmore⟩ := hgrows
  unfold Session.fedBytes
  simp only
  rw [← hmore, List.take_append_of_le_length h]

theorem Inv.read (h : Inv crates elf opts c i program origin before s) (hread : s.calls.head? = some .readChannel)
    {label : Label} (hhost : label.isHost = true) {block : Rtt.System b}
    (hstep : c.Steps s.target.block (.port i label) block) :
    Inv crates elf opts c i program origin before { s with target := { s.target with block := block } } := by
  obtain ⟨hcalls, hblock, hattached⟩ := h.phase.running_of_read hread
  have hmode : RttAction.host (ι := ι) label ≠ .host (.setFlags .noBlockTrim) := by
    intro heq
    cases heq
    cases hhost
  have hattached' := hattached.step hmode (Target.host_ring hblock (byHost_of_moves hhost) hstep)
  have hgrows : (s.target.block.port i).copied <+: (block.port i).copied := Target.copied_grows hstep
  refine ⟨⟨h.logger, h.won, ?_, ⟨h.fed.1, Nat.le_trans h.fed.2 hgrows.length_le⟩, ?_⟩,
    .running hcalls (hblock.step hstep) hattached'⟩
  · have hcopied := hattached'.queued.copied
    rw [hattached'.passed] at hcopied
    exact hcopied
  · rw [fedBytes_grows h.fed.2 hgrows]
    exact h.decoded

theorem Inv.target (h : Inv crates elf opts c i program origin before s) (hruns : .runCore ∉ s.calls)
    {a : TargetAction ι b} {target : Target ι p b} (hstep : s.target.step c i a = some target) :
    Inv crates elf opts c i program origin before { s with target := target } := by
  obtain ⟨hcopied, hlogger⟩ := Target.step_keeps hstep
  have hsent : System.Inv program target.logger ∧ s.target.logger.won <+: target.logger.won ∧
      SerialWriter.opBytes s.target.logger.received <+: SerialWriter.opBytes target.logger.received := by
    rcases hlogger with hsame | ⟨k, action, hlogger⟩
    · rw [hsame]
      exact ⟨h.logger, List.prefix_refl _, List.prefix_refl _⟩
    · refine ⟨h.logger.step hlogger, System.won_step hlogger, ?_⟩
      obtain ⟨more, hmore⟩ := System.received_step hlogger
      rw [← hmore, SerialWriter.opBytes_append]
      exact List.prefix_append _ _
  refine ⟨⟨hsent.1, h.won.trans hsent.2.1, ?_, ?_, ?_⟩, ?_⟩
  · obtain ⟨copied, hsplit, hbegins⟩ := h.copied
    exact ⟨copied, hcopied.trans hsplit, hbegins.trans (hsent.2.2.drop _)⟩
  · rw [hcopied]
    exact h.fed
  · unfold Session.fedBytes
    rw [hcopied]
    exact h.decoded
  · cases h.phase with
    | halted hcalls hhalted =>
      rw [hcalls] at hruns
      exact absurd (List.mem_cons_of_mem _ hhalted) hruns
    | running hcalls hblock hattached =>
      obtain ⟨hblock', hring⟩ := Target.step_ring hblock hstep
      refine .running hcalls hblock' ?_
      rcases hring with hquiet | ⟨x, hx, hring⟩
      · show RttSystem.Attached _ program origin before (target.ring c i)
        rw [hquiet]
        exact hattached
      · exact hattached.step (hx _) hring
    | ended hcalls => exact .ended hcalls

section
variable {writable : Nat → Prop} (hprobe : RttHost.Documented writeWord32 writable) (hchannel : opts.rttChannel = i)
include hprobe hchannel

/-- **The first call of `configureRttMode`** makes the channel a queue, or fails. -/
theorem phase_configured (hblock : c.Inv s.target.block) (hcalls : s.calls = .configureRttMode .blocking :: rest opts)
    (horigin : s.target.blocking c i = origin) (hbegin : RttSystem.Attached (c.ring i) program origin before origin)
    {link : Link} {main : RttHost.State}
    (hstep : RttHost.step writeWord32 opts b s.main (.configure link) = some main) :
    Phase opts c i program origin before (s.withMain main) := by
  simp only [RttHost.step, Session.main, hcalls, hchannel, Option.some.injEq] at hstep
  subst hstep
  by_cases hok : (RttHost.configureRttMode writeWord32 host link s.target.block.memory b.address i .blocking).1 = .ok
  · -- the store is the one of the flags
    have hmemory := RttHost.configure_stored hprobe (RttHost.modeFlagsAddr_up i.isLt) hok
    rw [if_pos hok, hmemory]
    let block : Rtt.System b :=
      { s.target.block with memory := storeWord 4 s.target.block.memory (b.wordAt (.up i) .flags) 2 }
    have hset : c.Steps s.target.block (.port i (.setFlags .blockIfFull)) block := by
      simp only [Channels.Steps, Channels.step, Port.step, Option.map_some, Function.update_eq_self]
      rfl
    have hring : some (s.target.blocking c i) = some ⟨s.target.logger, c.machine block i⟩ :=
      Target.host_ring hblock rfl hset
    refine .running (List.suffix_refl _) (hblock.step hset) ?_
    show RttSystem.Attached _ program origin before ⟨s.target.logger, c.machine block i⟩
    rw [← Option.some.inj hring, horigin]
    exact hbegin
  · exact .ended (if_neg hok)

theorem Inv.call (hbegin : RttSystem.Attached (c.ring i) program origin before origin)
    (h : Inv crates elf opts c i program origin before s) {x : RttHost.Label Link}
    (hcall : isCall x = true) {main : RttHost.State} (hstep : RttHost.step writeWord32 opts b s.main x = some main) :
    Inv crates elf opts c i program origin before (s.withMain main) := by
  refine ⟨h.toFeeds.withMain main, ?_⟩
  cases x with
  | read => cases hcall
  | others memory => cases hcall
  | fails =>
    simp only [RttHost.step] at hstep
    split at hstep <;> cases hstep
    exact .ended rfl
  | returns upChannels =>
    have hsame : ∃ call calls, s.calls = call :: calls ∧ main.calls = calls ∧ main.memory = s.target.block.memory ∧
        ∀ mode, call ≠ .configureRttMode mode := by
      simp only [RttHost.step, Session.main] at hstep
      split at hstep
      · cases hstep
      · cases hstep
      · next hcalls =>
        cases hstep
        exact ⟨_, _, hcalls, rfl, rfl, by simp⟩
      · next call rest hnot hnot' hcalls =>
        cases hstep
        exact ⟨_, _, hcalls, rfl, rfl, hnot⟩
    obtain ⟨call, calls, hcalls, hmain, hmemory, hnot⟩ := hsame
    have htarget : (s.withMain main).target = s.target := by
      unfold withMain
      rw [hmemory]
    cases h.phase with
    | halted hcalls' =>
      rw [hcalls'] at hcalls
      cases hcalls
      exact absurd rfl (hnot _)
    | running hcalls' hblock hattached =>
      refine .running ?_ (by rw [htarget]; exact hblock) (by rw [htarget]; exact hattached)
      show main.calls <:+ _
      rw [hmain]
      rw [hcalls] at hcalls'
      exact (List.suffix_cons call calls).trans hcalls'
    | ended hcalls' =>
      rw [hcalls'] at hcalls
      cases hcalls
  | configure link =>
    cases h.phase with
    | halted hcalls _ hblock horigin => exact phase_configured hprobe hchannel hblock hcalls horigin hbegin hstep
    | running hcalls hblock hattached =>
      simp only [RttHost.step, Session.main] at hstep
      split at hstep
      next mode calls hcalls' =>
        -- it is the last
        rw [hcalls'] at hcalls
        cases configure_last hcalls
        cases hstep
        exact .ended (ite_self _)
      · cases hstep
    | ended hcalls =>
      simp only [RttHost.step, Session.main, hcalls] at hstep
      cases hstep

end

theorem Inv.feed (h : Inv crates elf opts c i program origin before s) :
    Inv crates elf opts c i program origin before (s.feed crates elf i) := by
  unfold Session.feed
  cases hdecoder : s.decoder with
  | none => exact h
  | some buffer =>
    simp only
    split
    next hmore =>
      refine ⟨⟨h.logger, h.won, h.copied, ⟨?_, Nat.le_refl _⟩, ?_⟩, ?_⟩
      · exact Nat.le_trans h.fed.1 h.fed.2
      · have hbytes : ((s.target.block.port i).copied.take (s.target.block.port i).copied.length).drop
            origin.channel.copied.length = s.fedBytes i origin ++ (s.target.block.port i).copied.drop s.fed := by
          unfold Session.fedBytes
          rw [List.take_length, ← List.drop_append_of_le_length, List.take_append_drop]
          rw [List.length_take, Nat.min_eq_left h.fed.2]
          exact h.fed.1
        show feedAndDo crates elf [] (((s.target.block.port i).copied.take
          (s.target.block.port i).copied.length).drop origin.channel.copied.length) = _
        rw [hbytes, feedAndDo_append, h.decoded, hdecoder]
      · cases hpanic : (feedAndDo crates elf buffer ((s.target.block.port i).copied.drop s.fed)).2 with
        | none => exact .ended rfl
        | some left =>
          cases h.phase with
          | halted hcalls hhalted hblock horigin => exact .halted hcalls hhalted hblock horigin
          | running hcalls hblock hattached => exact .running hcalls hblock hattached
          | ended hcalls => exact .ended hcalls
    · exact h

theorem Inv.step {writable : Nat → Prop} (hprobe : RttHost.Documented writeWord32 writable)
    (hchannel : opts.rttChannel = i) (hbegin : RttSystem.Attached (c.ring i) program origin before origin)
    (h : Inv crates elf opts c i program origin before s) {a : SessionAction ι b Link}
    (hstep : Steps crates elf writeWord32 opts c i s a t) : Inv crates elf opts c i program origin before t := by
  unfold Steps Session.step at hstep
  cases a with
  | call x =>
    simp only at hstep
    split at hstep
    next hcall =>
      obtain ⟨main, hmain, rfl⟩ := Option.map_eq_some_iff.mp hstep
      exact h.call hprobe hchannel hbegin hcall hmain
    · cases hstep
  | read label =>
    have hi : (⟨opts.rttChannel, hchannel ▸ i.isLt⟩ : Fin b.upChannels) = i := Fin.ext hchannel
    simp only [dif_pos (show opts.rttChannel < b.upChannels from hchannel ▸ i.isLt), hi] at hstep
    split at hstep
    next hguard =>
      obtain ⟨hread, -, hhost, -⟩ := hguard
      obtain ⟨block, hblock, rfl⟩ := Option.map_eq_some_iff.mp hstep
      have hnext := h.read hread hhost hblock
      split
      · exact hnext.feed
      · exact hnext
    · cases hstep
  | target a =>
    simp only at hstep
    split at hstep
    · cases hstep
    next hruns =>
      obtain ⟨target, htarget, rfl⟩ := Option.map_eq_some_iff.mp hstep
      exact h.target hruns htarget

end

end Session

end Postform
