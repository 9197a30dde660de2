import Postform.RttMemory
import Postform.RttResume

/- The target with its memory: the contexts of a logger whose transport is that of
   one channel of the block, that transport and the others, and the rest of the
   program. Seen at the channel it is the system of `RttDelivery` (`Target.step_ring`),
   so that what was proved there of a ring holds of the words and bytes. -/
namespace Postform

open Rtt Runs

/-- The contexts of a logger, and the block. -/
structure Target (ι : Type) (p : Platform) (b : ControlBlock) where
  logger : System ι p
  block : Rtt.System b

/-- A step of a context outside of the transport, of a transport, or of the rest of
the program. -/
inductive TargetAction (ι : Type) (b : ControlBlock) where
  | context (k : ι) (action : Action)
  | block (x : BlockLabel b)
  deriving DecidableEq

/-- What happens to a target: a step of its own, or a load or store of some host at
some channel. -/
inductive LifeAction (ι : Type) (b : ControlBlock) where
  | target (a : TargetAction ι b)
  | host (j : Fin b.upChannels) (label : Label)

variable {ι : Type} [DecidableEq ι] {p : Platform} {b : ControlBlock}

namespace Target

section
variable (c : Channels b) (i : Fin b.upChannels)

/-- The target's steps of the block that are not steps of the logger's contexts. -/
def own : BlockLabel b → Bool
  | .port _ .target => true
  | .port j (.callWrite _) | .port j .callCommit => j ≠ i
  | .port _ .hostLoad | .port _ .hostCopy | .port _ .hostStore | .port _ (.setFlags _) => false
  | .others _ _ => true

/-- One step. A context that has the writer waits for its call of the transport to
return, as in `RttSystem.step`. -/
def step (s : Target ι p b) : TargetAction ι b → Option (Target ι p b)
  | .context k action =>
    if (s.logger.contexts k).phase.holds ∧ (s.block.port i).pc ≠ .idle then none
    else do
      let logger ← s.logger.step (k, action)
      let calls := (logger.received.drop s.logger.received.length).map fun op => BlockLabel.port i op.label
      let block ← calls.foldlM c.step s.block
      pure ⟨logger, block⟩
  | .block x => if own i x then (c.step s.block x).map fun block => { s with block := block } else none

def live (s : Target ι p b) : LifeAction ι b → Option (Target ι p b)
  | .target a => s.step c i a
  | .host j label =>
    if label.byHost then (c.step s.block (.port j label)).map fun block => { s with block := block } else none

def Lives (s : Target ι p b) (a : LifeAction ι b) (t : Target ι p b) : Prop := s.live c i a = some t

/-- The logger and its channel. -/
def ring (s : Target ι p b) : RttSystem ι p := ⟨s.logger, c.machine s.block i⟩

/-- The same with blocking set. -/
def blocking (s : Target ι p b) : RttSystem ι p := ⟨s.logger, { c.machine s.block i with flags := .blockIfFull }⟩

end

variable {c : Channels b} {i : Fin b.upChannels} {s t : Target ι p b}

theorem pc_abs_idle (pc : Pc) : pc.abs = .idle ↔ pc = .idle := by
  cases pc <;> simp [Pc.abs]

theorem label_op (u : Rtt.System b) (op : TransportOp) : u.label i (.port i op.label) = some op.label := by
  cases op <;> simp [Rtt.System.label, TransportOp.label, Pc.label]

theorem label_own {u : Rtt.System b} {x : BlockLabel b} {label : Label} (hown : own i x = true)
    (h : u.label i x = some label) : label = .target := by
  cases x with
  | port j a =>
    simp only [Rtt.System.label] at h
    split at h
    next hj =>
      subst hj
      cases a with
      | target =>
        unfold Pc.label at h
        simp only at h
        split at h <;> cases h
        rfl
      | _ => simp [own] at hown
    · cases h
  | others address bytes => cases h

theorem calls_ring : ∀ (ops : List TransportOp) {u v : Rtt.System b}, c.Inv u →
    (ops.map fun op => BlockLabel.port i op.label).foldlM c.step u = some v →
    c.Inv v ∧ (ops.map TransportOp.label).foldlM (Rtt.step (c.up i).size) (c.machine u i) = some (c.machine v i)
  | [], u, v, h, hcalls => by
    cases hcalls
    exact ⟨h, rfl⟩
  | op :: ops, u, v, h, hcalls => by
    rw [List.map_cons, List.foldlM_cons] at hcalls
    obtain ⟨w, hw, hcalls⟩ := Option.bind_eq_some_iff.mp hcalls
    have hone := h.machine hw i
    rw [label_op] at hone
    have hone : Rtt.step (c.up i).size (c.machine u i) op.label = some (c.machine w i) := hone
    obtain ⟨hv, hrest⟩ := calls_ring ops (h.step hw) hcalls
    refine ⟨hv, ?_⟩
    rw [List.map_cons, List.foldlM_cons, hone]
    exact hrest

/-- **A step of the target is a step of the logger and its ring**, or of neither. -/
theorem step_ring (h : c.Inv s.block) {a : TargetAction ι b} (hstep : s.step c i a = some t) :
    c.Inv t.block ∧ (t.ring c i = s.ring c i ∨
      ∃ x, (∀ label, x ≠ .host label) ∧ RttSystem.Steps (c.up i).size (s.ring c i) x (t.ring c i)) := by
  unfold step at hstep
  cases a with
  | context k action =>
    simp only at hstep
    split at hstep
    · cases hstep
    next hguard =>
      obtain ⟨logger, hlogger, hstep⟩ := Option.bind_eq_some_iff.mp hstep
      obtain ⟨block, hblock, hstep⟩ := Option.bind_eq_some_iff.mp hstep
      cases hstep
      obtain ⟨hinv, hcalls⟩ := calls_ring _ h hblock
      refine ⟨hinv, .inr ⟨.context k action, fun _ => by simp, ?_⟩⟩
      have hguard' : ¬(((s.ring c i).logger.contexts k).phase.holds ∧ (s.ring c i).channel.target ≠ .idle) := by
        intro hbusy
        exact hguard ⟨hbusy.1, fun hidle => hbusy.2 ((pc_abs_idle _).mpr hidle)⟩
      unfold RttSystem.Steps RttSystem.step
      simp only
      rw [if_neg hguard']
      apply Option.bind_eq_some_iff.mpr
      refine ⟨logger, hlogger, Option.bind_eq_some_iff.mpr ⟨_, hcalls, rfl⟩⟩
  | block x =>
    simp only at hstep
    split at hstep
    next hown =>
      obtain ⟨block, hblock, rfl⟩ := Option.map_eq_some_iff.mp hstep
      refine ⟨h.step hblock, ?_⟩
      have hone := h.machine hblock i
      cases hlabel : s.block.label i x with
      | none =>
        rw [hlabel] at hone
        exact .inl (by unfold ring; rw [show c.machine block i = c.machine s.block i from hone])
      | some label =>
        rw [hlabel] at hone
        cases label_own hown hlabel
        refine .inr ⟨.transport, fun _ => by simp, ?_⟩
        have hone : Rtt.targetStep (c.up i).size (c.machine s.block i) = some (c.machine block i) := hone
        unfold RttSystem.Steps RttSystem.step ring
        simp only [hone]
        rfl
    · cases hstep

/-! With any hosts. -/

theorem label_host {j : Fin b.upChannels} {u : Rtt.System b} {label : Label} (hhost : label.byHost = true) :
    u.label i (.port j label) = if j = i then some label else none := by
  unfold Rtt.System.label
  simp only
  split
  next hj =>
    cases label with
    | target => cases hhost
    | _ => rfl
  · rfl

/-- **A step of a host at the logger's channel** is one of the ring's host. -/
theorem host_ring (h : c.Inv s.block) {label : Label} (hhost : label.byHost = true) {block : Rtt.System b}
    (hstep : c.Steps s.block (.port i label) block) :
    RttSystem.Steps (c.up i).size (s.ring c i) (.host label) ⟨s.logger, c.machine block i⟩ := by
  have hone := h.machine hstep i
  rw [label_host hhost, if_pos rfl] at hone
  have hone : Rtt.step (c.up i).size (c.machine s.block i) label = some (c.machine block i) := hone
  unfold RttSystem.Steps RttSystem.step ring
  simp only [hhost, if_true, hone]
  rfl

/-- What every state of a target keeps, whoever has read its channels and set their
modes. -/
structure Inv (c : Channels b) (i : Fin b.upChannels) (program : ι → List (List (Argument p))) (s : Target ι p b) :
    Prop where
  block : c.Inv s.block
  logger : System.Inv program s.logger
  passed : (s.block.port i).passed = SerialWriter.opBytes s.logger.received

variable {program : ι → List (List (Argument p))}

theorem Inv.loose (h : Inv c i program s) : RttSystem.Loose (c.ring i) 0 program (s.ring c i) :=
  ⟨h.logger, (h.block i).trail, h.passed⟩

theorem inv_constructed (hblock : c.Constructed s.block) (hlogger : s.logger = System.initial program) :
    Inv c i program s := by
  refine ⟨hblock.inv, ?_, ?_⟩
  · rw [hlogger]
    exact System.inv_initial program
  · obtain ⟨-, -, hports⟩ := hblock
    rw [hports i, hlogger]
    rfl

theorem Inv.of_ring (h : Inv c i program s) (hblock : c.Inv t.block)
    (hring : t.ring c i = s.ring c i ∨ ∃ x, RttSystem.Steps (c.up i).size (s.ring c i) x (t.ring c i)) :
    Inv c i program t := by
  rcases hring with hquiet | ⟨x, hstep⟩
  · have hlogger : t.logger = s.logger := congrArg RttSystem.logger hquiet
    have hpassed : (t.block.port i).passed = (s.block.port i).passed :=
      congrArg (fun u : RttSystem ι p => u.channel.passed) hquiet
    exact ⟨hblock, hlogger ▸ h.logger, by rw [hpassed, hlogger]; exact h.passed⟩
  · have hloose := RttSystem.Loose.step (n := c.ring i) h.loose hstep
    exact ⟨hblock, hloose.logger, hloose.passed⟩

theorem Inv.live (h : Inv c i program s) {a : LifeAction ι b} (hstep : Lives c i s a t) : Inv c i program t := by
  cases a with
  | target a =>
    obtain ⟨hblock, hring⟩ := step_ring h.block hstep
    exact h.of_ring hblock (hring.imp id fun ⟨x, _, hx⟩ => ⟨x, hx⟩)
  | host j label =>
    unfold Lives Target.live at hstep
    simp only at hstep
    split at hstep
    next hhost =>
      obtain ⟨block, hblock, rfl⟩ := Option.map_eq_some_iff.mp hstep
      by_cases hj : j = i
      · subst hj
        exact h.of_ring (h.block.step hblock) (.inr ⟨_, host_ring h.block hhost hblock⟩)
      · have hone := h.block.machine hblock i
        rw [label_host hhost, if_neg hj] at hone
        have hone : c.machine block i = c.machine s.block i := hone
        exact h.of_ring (h.block.step hblock) (.inl (by unfold ring; rw [hone]))
    · cases hstep

theorem inv_always (hblock : c.Constructed s.block) (hlogger : s.logger = System.initial program)
    {tr : Trace (LifeAction ι b) (Target ι p b)} (hrun : IsRun (Lives c i) s tr) : Always (Inv c i program) s tr :=
  always_of_step (fun _ _ _ h hstep => h.live hstep) (inv_constructed hblock hlogger) hrun

/-! What a step of the target leaves to the host. -/

theorem copied_port {u v : Port} {memory memory' : Memory.Contents} {a : Label} (ha : a ≠ .hostCopy)
    (hstep : u.step b memory i a = some (memory', v)) : v.copied = u.copied := by
  cases a with
  | callWrite value =>
    simp only [Port.step] at hstep
    split at hstep <;> cases hstep
    rfl
  | callCommit =>
    simp only [Port.step] at hstep
    split at hstep <;> cases hstep
    rfl
  | target =>
    simp only [Port.step, Port.targetStep] at hstep
    split at hstep
    · cases hstep
    · cases hstep
      rfl
    · split at hstep <;> cases hstep <;> rfl
    · split at hstep <;> cases hstep <;> rfl
    · cases hstep
      rfl
    · cases hstep
      rfl
    · cases hstep
      rfl
    · cases hstep
      rfl
  | hostLoad =>
    simp only [Port.step] at hstep
    split at hstep <;> cases hstep
    rfl
  | hostCopy => exact absurd rfl ha
  | hostStore =>
    simp only [Port.step] at hstep
    split at hstep <;> cases hstep
    rfl
  | setFlags flags =>
    simp only [Port.step] at hstep
    cases hstep
    rfl

theorem copied_block {u v : Rtt.System b} {x : BlockLabel b} (hx : x ≠ .port i .hostCopy) (hstep : c.Steps u x v) :
    (v.port i).copied = (u.port i).copied := by
  rcases Channels.step_cases hstep with ⟨j, a, memory, q, rfl, hport, rfl⟩ | ⟨address, bytes, rfl, -, rfl⟩
  · by_cases hij : i = j
    · subst hij
      have hcopied := copied_port (fun ha => hx (by rw [ha])) hport
      show (Function.update u.port i q i).copied = _
      rw [Function.update_self, hcopied]
    · show (Function.update u.port j q i).copied = _
      rw [Function.update_of_ne hij]
  · rfl

theorem copied_grows {u v : Rtt.System b} {x : BlockLabel b} (hstep : c.Steps u x v) :
    (u.port i).copied <+: (v.port i).copied := by
  by_cases hx : x = .port i .hostCopy
  · subst hx
    rcases Channels.step_cases hstep with ⟨j, a, memory, q, heq, hport, rfl⟩ | ⟨address, bytes, heq, -⟩
    · cases heq
      show _ <+: (Function.update u.port i q i).copied
      rw [Function.update_self]
      simp only [Port.step] at hport
      split at hport
      · cases hport
      · split at hport <;> cases hport
        exact List.prefix_append _ _
    · cases heq
  · rw [copied_block hx hstep]

theorem copied_calls : ∀ (ops : List TransportOp) {u v : Rtt.System b},
    (ops.map fun op => BlockLabel.port i op.label).foldlM c.step u = some v → (v.port i).copied = (u.port i).copied
  | [], u, v, h => by
    cases h
    rfl
  | op :: ops, u, v, h => by
    rw [List.map_cons, List.foldlM_cons] at h
    obtain ⟨w, hw, h⟩ := Option.bind_eq_some_iff.mp h
    rw [copied_calls ops h]
    apply copied_block (fun heq => ?_) hw
    cases op <;> cases heq

/-- **A step of the target leaves what the host has**, and the logger with all that it
had sent. -/
theorem step_keeps {a : TargetAction ι b} (hstep : s.step c i a = some t) :
    (t.block.port i).copied = (s.block.port i).copied ∧
      (t.logger = s.logger ∨ ∃ k action, s.logger.step (k, action) = some t.logger) := by
  unfold step at hstep
  cases a with
  | context k action =>
    simp only at hstep
    split at hstep
    · cases hstep
    · obtain ⟨logger, hlogger, hstep⟩ := Option.bind_eq_some_iff.mp hstep
      obtain ⟨block, hblock, hstep⟩ := Option.bind_eq_some_iff.mp hstep
      cases hstep
      exact ⟨copied_calls _ hblock, .inr ⟨k, action, hlogger⟩⟩
  | block x =>
    simp only at hstep
    split at hstep
    next hown =>
      obtain ⟨block, hblock, rfl⟩ := Option.map_eq_some_iff.mp hstep
      refine ⟨copied_block (fun heq => ?_) hblock, .inl rfl⟩
      rw [heq] at hown
      cases hown
    · cases hstep

end Target

theorem System.received_step {s t : System ι p} {k : ι} {a : Action} (hstep : s.step (k, a) = some t) :
    s.received <+: t.received := by
  rcases System.step_sends hstep with ⟨hsame, -⟩ | ⟨op, hsent, -⟩
  · rw [hsame]
  · rw [hsent]
    exact List.prefix_append _ _

end Postform
