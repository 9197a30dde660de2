import Postform.Delivery
import Postform.RttProgress

/- The whole path over RTT. The contexts of `Contexts` log through a transport that
   is the ring of `RttTransport`, and the host reads the ring. A context that gives
   the transport an operation is inside that call until the ring's program counter
   is idle again, and takes no step of its own before; the others do.

   Nothing is known of the order of the steps. Whatever it is, the host has printed
   the first of the calls that won (`rtt_delivers`). And nothing can be stuck: the
   call in progress can be brought to its end, and all that was logged be printed,
   by the context that has the writer, the transport and the host alone
   (`rtt_never_stuck`). -/
namespace Postform

open Wire Host Runs

/-- The call of the transport that an operation is. -/
def TransportOp.label : TransportOp → Rtt.Label
  | .write value => .callWrite value
  | .commit => .callCommit

/-- The logger with its contexts, and the channel with the host. -/
structure RttSystem (ι : Type) (p : Platform) where
  logger : System ι p
  channel : Rtt.Machine

/-- A step of a context outside of the transport, of the call of the transport in
progress, or of the host. -/
inductive RttAction (ι : Type) where
  | context (i : ι) (action : Action)
  | transport
  | host (label : Rtt.Label)
  deriving DecidableEq, Repr

variable {ι : Type} [DecidableEq ι] {p : Platform}

namespace RttSystem

def initial (buffer : Nat → UInt8) (start : Nat) (program : ι → List (List (Argument p))) : RttSystem ι p :=
  ⟨System.initial program, .initial buffer start .blockIfFull⟩

/-- One step. A context that has the writer waits for its call of the transport to
return; what its step gives the transport is the next call. -/
def step (size : Nat) (s : RttSystem ι p) : RttAction ι → Option (RttSystem ι p)
  | .context i action =>
    if (s.logger.contexts i).phase.holds ∧ s.channel.target ≠ .idle then none
    else do
      let logger ← s.logger.step (i, action)
      let calls := (logger.received.drop s.logger.received.length).map TransportOp.label
      let channel ← calls.foldlM (Rtt.step size) s.channel
      pure ⟨logger, channel⟩
  | .transport => (Rtt.targetStep size s.channel).map fun channel => { s with channel := channel }
  | .host label =>
    if label.byHost then (Rtt.step size s.channel label).map fun channel => { s with channel := channel } else none

/-- The system as a relation. -/
def Steps (size : Nat) (s : RttSystem ι p) (a : RttAction ι) (t : RttSystem ι p) : Prop := s.step size a = some t

/-! What a step of a context does to the channel. -/

/-- **A step of the system**: one of a context, with the call of the transport that
it begins if any, or one of the channel alone. -/
theorem step_cases {size : Nat} {s t : RttSystem ι p} {a : RttAction ι} (hstep : s.step size a = some t) :
    (∃ i b, a = .context i b ∧ s.logger.step (i, b) = some t.logger ∧
      ((s.logger.contexts i).phase.holds = true → s.channel.target = .idle) ∧
      (t.channel = s.channel ∧ t.logger.received = s.logger.received ∨
        ∃ op, t.logger.received = s.logger.received ++ [op] ∧ Rtt.Steps size s.channel op.label t.channel)) ∨
    t.logger = s.logger ∧ ∃ label, (a = .transport ∧ label = .target ∨ a = .host label ∧ label.byHost = true) ∧
      Rtt.Steps size s.channel label t.channel := by
  unfold RttSystem.step at hstep
  cases a with
  | context i b =>
    left
    simp only at hstep
    split at hstep
    · cases hstep
    next hguard =>
    obtain ⟨logger, hlogger, hstep⟩ := Option.bind_eq_some_iff.mp hstep
    obtain ⟨channel, hchannel, hstep⟩ := Option.bind_eq_some_iff.mp hstep
    cases hstep
    refine ⟨i, b, rfl, hlogger, fun hholds => ?_, System.step_calls hlogger hchannel⟩
    by_contra hbusy
    exact hguard ⟨hholds, hbusy⟩
  | transport =>
    right
    obtain ⟨channel, hchannel, rfl⟩ := Option.map_eq_some_iff.mp hstep
    exact ⟨rfl, .target, .inl ⟨rfl, rfl⟩, hchannel⟩
  | host label =>
    right
    simp only at hstep
    split at hstep
    · next hhost =>
      obtain ⟨channel, hchannel, rfl⟩ := Option.map_eq_some_iff.mp hstep
      exact ⟨rfl, label, .inr ⟨rfl, hhost⟩, hchannel⟩
    · cases hstep

theorem passed_step {size : Nat} {s t : RttSystem ι p} {a : RttAction ι} (hstep : s.step size a = some t)
    (h : s.channel.passed = SerialWriter.opBytes s.logger.received) :
    t.channel.passed = SerialWriter.opBytes t.logger.received := by
  rcases step_cases hstep with ⟨i, b, -, -, -, ⟨hchannel, hsame⟩ | ⟨op, hsent, hcall⟩⟩ |
    ⟨hlogger, label, hlabel, hchannel⟩
  · rw [hchannel, h, hsame]
  · rw [Rtt.passed_step hcall, h, hsent, SerialWriter.opBytes_append]
    cases op <;> rfl
  · have hpasses : label.passes = [] := by
      rcases hlabel with ⟨-, rfl⟩ | ⟨-, hhost⟩
      · rfl
      · cases label with
        | callWrite => cases hhost
        | _ => rfl
    rw [Rtt.passed_step hchannel, hpasses, List.append_nil, h, hlogger]

/-! The invariant. -/

/-- The logger's invariant and the ring's, with the bytes of the one passed to the
other; and with no call in progress, or one that is about to give the writer back,
all of it is committed. -/
structure Inv (n : Rtt.RingSize) (start : Nat) (program : ι → List (List (Argument p))) (s : RttSystem ι p) : Prop where
  logger : System.Inv program s.logger
  fifo : ∃ written P R, Rtt.Fifo n start s.channel written P R
  passed : s.channel.passed = SerialWriter.opBytes s.logger.received
  free : s.logger.taken = false → s.channel.target = .idle ∧ s.channel.write = s.channel.mWritePtr
  committed : ∀ i, (s.logger.contexts i).phase = .committed →
    s.channel.target = .storeWrite ∨ s.channel.target = .idle ∧ s.channel.write = s.channel.mWritePtr

variable {n : Rtt.RingSize} {start : Nat} {program : ι → List (List (Argument p))}

theorem inv_initial (buffer : Nat → UInt8) (hstart : start < n.size) :
    Inv n start program (initial buffer start program) where
  logger := System.inv_initial program
  fifo := ⟨[], 0, 0, Rtt.fifo_initial buffer hstart⟩
  passed := rfl
  free := fun _ => ⟨rfl, rfl⟩
  committed := fun _ h => (nomatch h)

section
variable {s t : RttSystem ι p}

theorem Inv.context (h : Inv n start program s) {i : ι} {b : Action} (hlogger : s.logger.step (i, b) = some t.logger)
    (hwaits : (s.logger.contexts i).phase.holds = true → s.channel.target = .idle)
    (hchannel : t.channel = s.channel ∧ t.logger.received = s.logger.received ∨
      ∃ op, t.logger.received = s.logger.received ++ [op] ∧ Rtt.Steps n.size s.channel op.label t.channel)
    (hpassed : t.channel.passed = SerialWriter.opBytes t.logger.received) : Inv n start program t := by
  have hinv := h.logger.step hlogger
  rcases System.step_sends hlogger with ⟨hsame, hfree, hcommitted⟩ | ⟨op, hsent, hholds, hnot, htaken, hcommitted⟩
  · -- the transport is not called
    have hquiet : t.channel = s.channel := by
      rcases hchannel with ⟨hquiet, -⟩ | ⟨op, hsent, -⟩
      · exact hquiet
      · rw [hsame] at hsent
        exact absurd (congrArg List.length hsent) (by simp)
    refine ⟨hinv, by rw [hquiet]; exact h.fifo, hpassed, fun hf => ?_, fun j hj => ?_⟩
    · rw [hquiet]
      rcases hfree hf with hf | hphase
      · exact h.free hf
      · rcases h.committed i hphase with hpc | hsettled
        · rw [hwaits (by rw [hphase]; rfl)] at hpc
          cases hpc
        · exact hsettled
    · rw [hquiet]
      exact h.committed j (hcommitted j hj)
  · have hidle := hwaits hholds
    have hcall : Rtt.Steps n.size s.channel op.label t.channel := by
      rcases hchannel with ⟨-, hsame⟩ | ⟨op', hsent', hcall⟩
      · rw [hsame] at hsent
        exact absurd (congrArg List.length hsent) (by simp)
      · rw [hsent] at hsent'
        cases List.append_cancel_left hsent'
        exact hcall
    have htakenTrue : s.logger.taken = true := (h.logger.lock.taken_iff ()).mpr ⟨i, System.owner_holds hholds⟩
    obtain ⟨written, P, R, hfifo⟩ := h.fifo
    have hmode : op.label ≠ .setFlags .noBlockTrim := by cases op <;> simp [TransportOp.label]
    have hnext := hfifo.step hmode hcall
    refine ⟨hinv, hnext, hpassed, fun hf => ?_, fun j hj => ?_⟩
    · rw [htaken, htakenTrue] at hf
      cases hf
    · rcases hcommitted j hj with hj | ⟨-, rfl⟩
      · -- only one context has the writer
        have hji : j = i := h.logger.lock.unique () j i (System.owner_holds (by rw [hj]; rfl)) (System.owner_holds hholds)
        exact absurd (hji ▸ hj) hnot
      · left
        simp only [Rtt.Steps, Rtt.step, TransportOp.label, hidle, if_true, Option.some.injEq] at hcall
        rw [← hcall]

theorem Inv.transport (h : Inv n start program s) (hlogger : t.logger = s.logger)
    (hchannel : Rtt.targetStep n.size s.channel = some t.channel)
    (hpassed : t.channel.passed = SerialWriter.opBytes t.logger.received) : Inv n start program t := by
  obtain ⟨written, P, R, hfifo⟩ := h.fifo
  have hbusy : s.channel.target ≠ .idle := by
    intro hidle
    simp [Rtt.targetStep, hidle] at hchannel
  obtain ⟨written', P', hnext⟩ := hfifo.targetStep hchannel
  refine ⟨hlogger ▸ h.logger, ⟨written', P', R, hnext⟩, hpassed, fun hf => ?_, fun i hi => ?_⟩
  · rw [hlogger] at hf
    exact absurd (h.free hf).1 hbusy
  · rw [hlogger] at hi
    rcases h.committed i hi with hpc | ⟨hidle, -⟩
    · simp only [Rtt.targetStep, hpc, Option.some.injEq] at hchannel
      rw [← hchannel]
      exact .inr ⟨rfl, rfl⟩
    · exact absurd hidle hbusy

theorem Inv.host (h : Inv n start program s) {label : Rtt.Label} (hmode : label ≠ .setFlags .noBlockTrim)
    (hlogger : t.logger = s.logger) (hhost : label.byHost = true) (hchannel : Rtt.Steps n.size s.channel label t.channel)
    (hpassed : t.channel.passed = SerialWriter.opBytes t.logger.received) : Inv n start program t := by
  obtain ⟨written, P, R, hfifo⟩ := h.fifo
  obtain ⟨htarget, -, hwrite, hptr⟩ := Rtt.hostStep_target hhost hchannel
  refine ⟨hlogger ▸ h.logger, hfifo.step hmode hchannel, hpassed, fun hf => ?_, fun i hi => ?_⟩
  · rw [htarget, hwrite, hptr]
    exact h.free (hlogger ▸ hf)
  · rw [htarget, hwrite, hptr]
    exact h.committed i (hlogger ▸ hi)

theorem Inv.step (h : Inv n start program s) {a : RttAction ι} (hmode : a ≠ .host (.setFlags .noBlockTrim))
    (hstep : s.step n.size a = some t) : Inv n start program t := by
  have hpassed := passed_step hstep h.passed
  rcases step_cases hstep with ⟨i, b, -, hlogger, hwaits, hchannel⟩ | ⟨hlogger, label, hlabel, hchannel⟩
  · exact h.context hlogger hwaits hchannel hpassed
  · rcases hlabel with ⟨-, rfl⟩ | ⟨rfl, hhost⟩
    · exact h.transport hlogger hchannel hpassed
    · exact h.host (fun heq => hmode (heq ▸ rfl)) hlogger hhost hchannel hpassed

theorem Inv.copied (h : Inv n start program s) :
    s.channel.copied <+: SerialWriter.opBytes s.logger.received := by
  obtain ⟨written, P, R, hfifo⟩ := h.fifo
  rw [← h.passed]
  exact hfifo.lossless.copied

end

theorem inv_always {buffer : Nat → UInt8} (hstart : start < n.size) {tr : Trace (RttAction ι) (RttSystem ι p)}
    (hrun : IsRun (Steps n.size) (initial buffer start program) tr)
    (hmode : Along (fun _ a => a ≠ .host (.setFlags .noBlockTrim)) (initial buffer start program) tr) :
    Always (Inv n start program) (initial buffer start program) tr :=
  always_of_along (fun _ _ _ h hstep ha => h.step ha hstep) (inv_initial buffer hstart) hrun hmode

/-! Nothing is stuck. -/

/-- The steps of the transport, of the host's reader, and of a context that
`holds` the writer in its call. -/
def Serves (holds : ι → Prop) (a : RttAction ι) : Prop :=
  a = .transport ∨ (∃ label, a = .host label ∧ Rtt.HostMoves label) ∨ ∃ i, holds i ∧ a = .context i .proceed

omit [DecidableEq ι] in
theorem Serves.mode {holds : ι → Prop} {a : RttAction ι} (h : Serves holds a) : a ≠ .host (.setFlags .noBlockTrim) := by
  rintro rfl
  rcases h with h | ⟨label, h, hlabel⟩ | ⟨i, -, h⟩
  · cases h
  · cases h
    cases hlabel
  · cases h

section
variable {s t : RttSystem ι p} {holds : ι → Prop}

theorem Inv.leads (h : Inv n start program s) (hleads : Leads (Steps n.size) (Serves holds) s t) :
    Inv n start program t :=
  hleads.keeps (fun _ _ _ hu hstep ha => hu.step ha.mode hstep) h

theorem leads_channel (holds : ι → Prop) (logger : System ι p) {channel channel' : Rtt.Machine}
    (h : Leads (Rtt.Steps n.size) Rtt.Moves channel channel') :
    Leads (Steps n.size) (Serves holds) ⟨logger, channel⟩ ⟨logger, channel'⟩ := by
  refine h.lift (f := fun channel => (⟨logger, channel⟩ : RttSystem ι p))
    (g := fun label => if label = .target then .transport else .host label) ?_ ?_
  · intro c label c' hstep hmoves
    rcases hmoves with rfl | hhost
    · show (Rtt.targetStep n.size c).map _ = _
      rw [show Rtt.targetStep n.size c = some c' from hstep]
      rfl
    · have hne : label ≠ .target := fun heq => by subst heq; cases hhost
      rw [if_neg hne]
      unfold Steps RttSystem.step
      simp only [Rtt.byHost_of_moves hhost, if_true]
      rw [show Rtt.step n.size c label = some c' from hstep]
      rfl
  · intro label hmoves
    rcases hmoves with rfl | hhost
    · exact .inl rfl
    · have hne : label ≠ .target := fun heq => by subst heq; cases hhost
      rw [if_neg hne]
      exact .inr (.inl ⟨label, rfl, hhost⟩)

theorem proceeds {i : ι} (hholds : (s.logger.contexts i).phase.holds = true)
    (hidle : s.channel.target = .idle) :
    ∃ t, Steps n.size s (.context i .proceed) t ∧ s.logger.step (i, .proceed) = some t.logger := by
  obtain ⟨logger, hlogger⟩ := System.proceed_enabled (System.stepsLeft_of_holds hholds)
  unfold Steps RttSystem.step
  simp only [hidle, ne_eq, not_true_eq_false, and_false, if_false, hlogger, Option.bind_eq_bind, Option.bind_some]
  rcases System.step_sends hlogger with ⟨hsame, -, -⟩ | ⟨op, hsent, -⟩
  · rw [hsame, List.drop_length]
    exact ⟨⟨logger, s.channel⟩, rfl, rfl⟩
  · rw [hsent, List.drop_left]
    obtain ⟨channel, hchannel⟩ : ∃ channel, Rtt.step n.size s.channel op.label = some channel := by
      cases op <;> simp [Rtt.step, TransportOp.label, hidle]
    exact ⟨⟨logger, channel⟩, by simp [hchannel], rfl⟩

/-- **A call ends**: the context with the writer, the transport and the host bring
    it to its end, whatever is left of it. -/
theorem Inv.ends (h : Inv n start program s) {i : ι} (hi : holds i) (hholds : (s.logger.contexts i).phase.holds = true) :
    ∃ t, Leads (Steps n.size) (Serves holds) s t ∧ t.logger.taken = false ∧
      t.logger.exchanges = s.logger.exchanges := by
  induction hleft : s.logger.stepsLeft i using Nat.strong_induction_on generalizing s with
  | _ left ih =>
    subst hleft
    -- the call of the transport that it is in returns
    obtain ⟨written, P, R, hfifo⟩ := h.fifo
    obtain ⟨channel, hreturns, -, hidle, -, -⟩ := hfifo.returns
    have hleads : Leads (Steps n.size) (Serves holds) s ⟨s.logger, channel⟩ := leads_channel holds s.logger hreturns
    have hchannel : ((⟨s.logger, channel⟩ : RttSystem ι p).logger.contexts i).phase.holds = true := hholds
    obtain ⟨t, hstep, hlogger⟩ := proceeds hchannel hidle
    have hlogger : s.logger.step (i, .proceed) = some t.logger := hlogger
    have hone : Leads (Steps n.size) (Serves holds) s t :=
      hleads.trans (.cons hstep (.inr (.inr ⟨i, hi, rfl⟩)) (.refl t))
    have hexchanges := System.proceed_exchanges hlogger
    rcases System.proceed_holds hlogger hholds with hmore | hfree
    · have hless := (System.stepsLeft_own hlogger (System.stepsLeft_of_holds hholds)).2
      obtain ⟨u, hends, hfree, hsame⟩ := ih (t.logger.stepsLeft i) (by omega) (h.leads hone) hmore rfl
      exact ⟨u, hone.trans hends, hfree, hsame.trans hexchanges⟩
    · exact ⟨t, hone, hfree, hexchanges⟩

theorem Inv.drains (h : Inv n start program s) (hfree : s.logger.taken = false) :
    ∃ channel, Leads (Steps n.size) (Serves holds) s ⟨s.logger, channel⟩ ∧
      channel.copied = SerialWriter.opBytes s.logger.received := by
  obtain ⟨written, P, R, hfifo⟩ := h.fifo
  obtain ⟨hidle, hwrite⟩ := h.free hfree
  have hP : P = written.length := by
    have hroom := hfifo.room
    obtain ⟨hRC, hCP, hPW⟩ := hfifo.order
    rw [hfifo.write, hfifo.mWritePtr] at hwrite
    exact Ring.slot_inj hPW (by omega) hwrite
  subst hP
  obtain ⟨channel, hleads, hcaught, hcopied⟩ := hfifo.catchUp
  refine ⟨channel, leads_channel holds s.logger (hleads.mono fun a ha => .inr ha), ?_⟩
  have hpassed := hfifo.passed
  rw [hidle, h.passed] at hpassed
  rw [hcopied, hpassed]
  exact (List.append_nil _).symm

theorem Inv.serves (h : Inv n start program s) :
    ∃ t, Leads (Steps n.size) (Serves fun i => (s.logger.contexts i).phase.holds = true) s t ∧
      t.logger.taken = false ∧ t.logger.exchanges = s.logger.exchanges ∧
      t.channel.copied = SerialWriter.opBytes t.logger.received := by
  cases htaken : s.logger.taken with
  | false =>
    obtain ⟨channel, hleads, hcopied⟩ := h.drains htaken
    exact ⟨_, hleads, htaken, rfl, hcopied⟩
  | true =>
    obtain ⟨i, hi⟩ := (h.logger.lock.taken_iff ()).mp htaken
    have hholds : (s.logger.contexts i).phase.holds = true := by
      by_contra hn
      simp [System.owner, hn] at hi
    let holding (j : ι) : Prop := (s.logger.contexts j).phase.holds = true
    obtain ⟨t, hends, hfree, hsame⟩ := @Inv.ends _ _ _ _ _ _ _ holding h i hholds hholds
    obtain ⟨channel, hdrains, hcopied⟩ := (h.leads hends).drains hfree
    exact ⟨_, hends.trans hdrains, hfree, hsame, hcopied⟩

end

/-- The system whose contexts execute log macros. -/
abbrev running {image : Image} (buffer : Nat → UInt8) (start : Nat) (calls : ι → List (Call p image)) : RttSystem ι p :=
  initial buffer start fun i => (calls i).map Call.arguments

end RttSystem

/-- **Delivery over RTT.** Contexts log through one channel in blocking mode while
    the host reads it, in any order of the steps. Whenever the host has copied some
    bytes, the decoder has called the action, in whatever chunks it was fed, on the
    logs of the first calls that won the writer and on nothing else. With all the bytes
    at most one call is missing, and none where no call is in progress. -/
theorem rtt_delivers (crates : Crates) (hcrates : crates.Documented) (n : Rtt.RingSize) (p : Platform) (image : Image)
    {ι : Type} [DecidableEq ι] (calls : ι → List (Call p image)) (buffer : Nat → UInt8) (start : Nat)
    (hstart : start < n.size) (tr : Trace (RttAction ι) (RttSystem ι p))
    (hrun : IsRun (RttSystem.Steps n.size) (RttSystem.running buffer start calls) tr)
    (hmode : Along (fun _ a => a ≠ .host (.setFlags .noBlockTrim)) (RttSystem.running buffer start calls) tr) :
    Always (fun s => ∀ chunks : List Bytes, chunks.flatten <+: s.channel.copied →
      ∃ printed left, Delivered calls s.logger.won printed ∧
        feedAll crates image.elfMetadata [] chunks = (logEvents printed, some left) ∧
        (chunks.flatten = SerialWriter.opBytes s.logger.received → s.logger.won.length ≤ printed.length + 1 ∧
          (s.logger.taken = false → printed.map Prod.fst = s.logger.won))) (RttSystem.running buffer start calls) tr := by
  apply (RttSystem.inv_always hstart hrun hmode).imp
  intro s h chunks hchunks
  rw [feedAll_eq]
  exact h.logger.delivered hcrates (fun call timestamp => (decode_at hcrates call timestamp).2) (hchunks.trans h.copied)

/-- **Nothing is stuck.** However far a run has come, the context with the writer,
    the transport and the host's reader can go on, without the other contexts, to
    where the writer is free and the host has got it all: it has printed every call
    that had won, the one in progress included. -/
theorem rtt_never_stuck (crates : Crates) (hcrates : crates.Documented) (n : Rtt.RingSize) (p : Platform) (image : Image)
    {ι : Type} [DecidableEq ι] (calls : ι → List (Call p image)) (buffer : Nat → UInt8) (start : Nat)
    (hstart : start < n.size) (tr : Trace (RttAction ι) (RttSystem ι p))
    (hrun : IsRun (RttSystem.Steps n.size) (RttSystem.running buffer start calls) tr)
    (hmode : Along (fun _ a => a ≠ .host (.setFlags .noBlockTrim)) (RttSystem.running buffer start calls) tr) :
    let s := final (RttSystem.running buffer start calls) tr
    ∃ t, Leads (RttSystem.Steps n.size) (RttSystem.Serves fun i => (s.logger.contexts i).phase.holds = true) s t ∧
      t.logger.taken = false ∧ t.logger.won = s.logger.won ∧ ∃ printed left, Delivered calls t.logger.won printed ∧
        printed.map Prod.fst = s.logger.won ∧
        feedAndDo crates image.elfMetadata [] t.channel.copied = (logEvents printed, some left) := by
  intro s
  have h : RttSystem.Inv n start _ s := always_final _ _ (RttSystem.inv_always hstart hrun hmode)
  obtain ⟨t, hleads, hfree, hsame, hcopied⟩ := h.serves
  have ht := h.leads hleads
  obtain ⟨printed, left, hdelivered, hfeed, hall⟩ :=
    ht.logger.delivered hcrates (fun call timestamp => (decode_at hcrates call timestamp).2) ht.copied
  have hwon : t.logger.won = s.logger.won := by rw [System.won, System.won, hsame]
  refine ⟨t, hleads, hfree, hwon, printed, left, hdelivered, ?_, hfeed⟩
  rw [← hwon]
  exact (hall hcopied).2 hfree

namespace Sample

/-- Three bytes of a log fill a ring of four, while a second context is refused. The
fourth waits, and the host reads the first. -/
def rttRun : List (RttAction Bool) :=
  [.context true (.readTimestamp 5), .context true .exchange, .context true .proceed, .transport, .transport, .transport,
    .context false (.readTimestamp 6), .context true .proceed, .transport, .context false .exchange, .transport,
    .context false .proceed, .transport, .context true .proceed, .transport, .transport, .transport,
    .context true .proceed, .transport, .transport, .transport, .host .hostLoad, .host .hostCopy, .host .hostStore]

end Sample

theorem rtt_delivers_sample : ∃ tr,
    follow (RttSystem.step 4) (RttSystem.running (fun _ => 0) 1 fun _ : Bool => [Sample.call]) Sample.rttRun = some tr ∧
    Always (fun s => ∀ chunks : List Bytes, chunks.flatten <+: s.channel.copied →
      ∃ printed left, Delivered (fun _ => [Sample.call]) s.logger.won printed ∧
        feedAll Crates.reference Sample.image.elfMetadata [] chunks = (logEvents printed, some left) ∧
        (chunks.flatten = SerialWriter.opBytes s.logger.received → s.logger.won.length ≤ printed.length + 1 ∧
          (s.logger.taken = false → printed.map Prod.fst = s.logger.won)))
      (RttSystem.running (fun _ => 0) 1 fun _ => [Sample.call]) tr := by
  obtain ⟨tr, htr⟩ : ∃ tr, follow (RttSystem.step 4) (RttSystem.running (fun _ => 0) 1 fun _ : Bool => [Sample.call])
      Sample.rttRun = some tr := ⟨_, rfl⟩
  exact ⟨tr, htr, rtt_delivers Crates.reference Crates.reference_documented ⟨4, by decide, by decide⟩ _ Sample.image _ _ 1
    (by decide) tr (isRun_follow _ htr) (along_follow _ htr (by decide))⟩

theorem rtt_never_stuck_sample : ∃ s : RttSystem Bool ⟨true, true, true⟩,
    Sample.rttRun.foldlM (RttSystem.step 4) (RttSystem.running (fun _ => 0) 1 fun _ : Bool => [Sample.call]) = some s ∧
    ∃ t, Leads (RttSystem.Steps 4) (RttSystem.Serves fun i => (s.logger.contexts i).phase.holds = true) s t ∧
      t.logger.taken = false ∧ t.logger.won = s.logger.won ∧
      ∃ printed left, Delivered (fun _ => [Sample.call]) t.logger.won printed ∧
        printed.map Prod.fst = s.logger.won ∧
        feedAndDo Crates.reference Sample.image.elfMetadata [] t.channel.copied = (logEvents printed, some left) := by
  obtain ⟨tr, htr⟩ : ∃ tr, follow (RttSystem.step 4) (RttSystem.running (fun _ => 0) 1 fun _ : Bool => [Sample.call])
      Sample.rttRun = some tr := ⟨_, rfl⟩
  refine ⟨_, foldlM_of_follow _ htr, rtt_never_stuck Crates.reference Crates.reference_documented
    ⟨4, by decide, by decide⟩ _ Sample.image _ _ 1 (by decide) tr (isRun_follow _ htr)
    (along_follow _ htr (by decide))⟩

end Postform
