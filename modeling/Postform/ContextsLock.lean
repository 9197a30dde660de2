import Postform.Contexts
import Postform.Lib.Simulation
import Postform.Lib.TryLock
import Postform.SerialLogger

/- The contexts of `Contexts` as a lock that is tried. Seen from outside a context
   is idle until its exchange, and then refused or on its way through the
   operations of its frame; reading the timestamp is no step there. The logger
   refines the lock (`System.refines`), and from it has that no context ever waits
   for another: a call returns after one step of its own where its exchange found
   the flag set, and otherwise after those that send its frame. -/
namespace Postform

open Function

/-- What a call logs. -/
structure Message (p : Platform) where
  timestamp : BitVec 64
  arguments : List (Argument p)

variable {ι : Type} {p : Platform}

/-- The bytes written for a message. -/
def Message.bytes (message : Message p) : Bytes := (vlogWrites message.timestamp message.arguments).flatten

/-- What the transport of a `SerialLogger` is called with for a message. -/
def Message.transportOps (message : Message p) : List TransportOp := World.frameOps message.bytes

def Exchange.message (e : Exchange ι p) : Message p := ⟨e.timestamp, e.arguments⟩

def Exchange.attempt (e : Exchange ι p) : TryLock.Attempt ι (Message p) := ⟨e.context, e.message, e.found⟩

/-- The operations a context has still to give the transport. -/
def Phase.tryLock : Phase → TryLock.Phase TransportOp
  | .idle | .stamped _ => .idle
  | .writing writer left =>
    if writer.state = .writable then .emitting ((Phase.writing writer left).remaining.map .write ++ [.commit])
    else .refused
  | .markerSent => .emitting [.write 0, .commit]
  | .zeroSent => .emitting [.commit]
  | .committed => .emitting []

theorem Phase.holds_tryLock (phase : Phase) : phase.tryLock.holds = phase.holds := by
  cases phase with
  | writing writer left => cases h : writer.state <;> simp [Phase.tryLock, TryLock.Phase.holds, Phase.holds, h]
  | _ => rfl

namespace System

/-- The logger as a lock. -/
def tryLock (s : System ι p) : TryLock.State ι (Message p) TransportOp :=
  ⟨s.taken, s.received, fun i => (s.contexts i).phase.tryLock, s.exchanges.map Exchange.attempt⟩

/-- The step of the lock that an action is. -/
def lockAction (s : System ι p) : ι × Action → Option (ι × TryLock.Action (Message p))
  | (_, .readTimestamp _) => none
  | (i, .exchange) =>
    match s.contexts i with
    | ⟨arguments :: _, .stamped timestamp⟩ => some (i, .attempt ⟨timestamp, arguments⟩)
    | _ => none
  | (i, .proceed) => some (i, .proceed)

variable [DecidableEq ι]

theorem tryLock_setContext (s : System ι p) (i : ι) (c : Context p) :
    (s.setContext i c).tryLock = s.tryLock.setPhase i c.phase.tryLock := by
  unfold tryLock setContext TryLock.State.setPhase
  congr 1
  funext j
  by_cases hji : j = i
  · rw [hji]
    simp only [update_self]
  · simp only [update_of_ne hji]

theorem tryLock_transmit {s : System ι p} {i : ι} {op : TransportOp} {phase : Phase} {left : List TransportOp}
    (hi : (s.contexts i).phase.tryLock = .emitting (op :: left)) (hphase : phase.tryLock = .emitting left) :
    TryLock.Steps Message.transportOps s.tryLock (i, .proceed) ((s.send op).goto i phase).tryLock := by
  unfold TryLock.Steps TryLock.step
  have hleft : s.tryLock.phases i = .emitting (op :: left) := hi
  simp only [hleft, goto, tryLock_setContext, hphase]
  rfl

theorem tryLock_writing {writer : SerialWriter Unit Unit} (hw : writer.state = .writable) (left : List Bytes) :
    match nextByte left with
    | some (value, rest) =>
      (Phase.writing writer left).tryLock = .emitting (.write (SerialWriter.sendByte writer.marker value).1 ::
        (((Phase.writing { writer with marker := (SerialWriter.sendByte writer.marker value).2.1 }
          (if (SerialWriter.sendByte writer.marker value).2.2 then rest else left)).remaining.map .write) ++ [.commit]))
    | none => (Phase.writing writer left).tryLock =
      .emitting [.write (SerialWriter.markerByte writer.marker), .write 0, .commit] := by
  have hphase : (Phase.writing writer left).tryLock =
      .emitting ((Phase.writing writer left).remaining.map .write ++ [.commit]) := if_pos hw
  cases hbyte : nextByte left with
  | some next =>
    obtain ⟨value, rest⟩ := next
    have hsend := remaining_sendByte writer hbyte
    show (Phase.writing writer left).tryLock = _
    rw [hphase, hsend]
    rfl
  | none =>
    have hnext := nextByte_flatten left
    rw [hbyte] at hnext
    show (Phase.writing writer left).tryLock = _
    rw [hphase, Phase.remaining, hnext]
    rfl

theorem tryLock_exchanged (s : System ι p) (i : ι) (arguments : List (Argument p)) (timestamp : BitVec 64) :
    (s.exchanged i arguments timestamp).tryLock =
      s.tryLock.attempted Message.transportOps i ⟨timestamp, arguments⟩ := by
  rw [exchanged, goto, tryLock_setContext, TryLock.State.attempted]
  unfold tryLock TryLock.State.setPhase
  rw [List.map_append]
  cases s.taken <;> rfl

/-- **The logger refines the lock.** -/
theorem refines : Simulation.Refines (fun (s : System ι p) a t => s.step a = some t)
    (TryLock.Steps Message.transportOps) tryLock lockAction := by
  intro s a t hstep
  obtain ⟨i, a⟩ := a
  cases a with
  | readTimestamp timestamp =>
    simp only [System.step] at hstep
    split at hstep
    · next hi =>
      cases hstep
      show (s.goto i (.stamped timestamp)).tryLock = s.tryLock
      rw [goto, tryLock_setContext]
      have hidle : s.tryLock.phases i = .idle := by
        show (s.contexts i).phase.tryLock = .idle
        rw [hi]
        rfl
      unfold TryLock.State.setPhase
      rw [show (Context.mk (s.contexts i).calls (.stamped timestamp)).phase.tryLock = s.tryLock.phases i from hidle.symm,
        update_eq_self]
    · cases hstep
  | exchange =>
    simp only [System.step] at hstep
    split at hstep
    · next arguments rest timestamp hi =>
      cases hstep
      have hidle : s.tryLock.phases i = .idle := by
        show (s.contexts i).phase.tryLock = .idle
        rw [hi]
        rfl
      have hattempted := tryLock_exchanged s i arguments timestamp
      have hstep : TryLock.Steps Message.transportOps s.tryLock (i, .attempt ⟨timestamp, arguments⟩)
          (s.exchanged i arguments timestamp).tryLock := by
        unfold TryLock.Steps TryLock.step
        simp only [hidle, hattempted]
      unfold lockAction
      simp only [hi]
      exact hstep
    · cases hstep
  | proceed =>
    simp only [System.step, proceed] at hstep
    show TryLock.Steps Message.transportOps s.tryLock (i, .proceed) t.tryLock
    split at hstep
    · cases hstep
    · cases hstep
    · next writer left hphase =>
      split at hstep
      · next hw =>
        have hwriting := tryLock_writing hw left
        split at hstep
        · next value rest hbyte =>
          cases hstep
          rw [hbyte] at hwriting
          exact tryLock_transmit (by rw [hphase]; exact hwriting) (if_pos hw)
        · next hbyte =>
          cases hstep
          rw [hbyte] at hwriting
          exact tryLock_transmit (by rw [hphase]; exact hwriting) rfl
      · next hw =>
        cases hstep
        have hrefused : s.tryLock.phases i = .refused := by
          show (s.contexts i).phase.tryLock = .refused
          rw [hphase]
          exact if_neg hw
        unfold TryLock.Steps TryLock.step
        simp only [hrefused, finish, tryLock_setContext]
        rfl
    · next hphase =>
      cases hstep
      exact tryLock_transmit (by rw [hphase]; rfl) rfl
    · next hphase =>
      cases hstep
      exact tryLock_transmit (by rw [hphase]; rfl) rfl
    · next hphase =>
      cases hstep
      have hempty : s.tryLock.phases i = .emitting [] := by
        show (s.contexts i).phase.tryLock = .emitting []
        rw [hphase]
        rfl
      unfold TryLock.Steps TryLock.step
      simp only [hempty, finish, tryLock_setContext]
      rfl

/-! No call waits for another. -/

/-- The steps a context has still to take until its call returns. -/
def stepsLeft (s : System ι p) (i : ι) : Nat := (s.tryLock.phases i).stepsLeft

theorem contexts_other {s t : System ι p} {i j : ι} {a : Action} (hstep : s.step (j, a) = some t) (hij : i ≠ j) :
    t.contexts i = s.contexts i := by
  have other (u : System ι p) (c : Context p) : (u.setContext j c).contexts i = u.contexts i := update_of_ne hij ..
  cases a with
  | readTimestamp timestamp =>
    simp only [System.step] at hstep
    split at hstep
    · cases hstep
      exact other s _
    · cases hstep
  | exchange =>
    simp only [System.step] at hstep
    split at hstep
    · cases hstep
      apply other
    · cases hstep
  | proceed =>
    simp only [System.step, proceed] at hstep
    repeat' split at hstep
    all_goals
      cases hstep
      try apply other

theorem proceed_returns {s t : System ι p} {i : ι} (hstep : s.proceed i = some t) :
    t.contexts i = ⟨(s.contexts i).calls.tail, .idle⟩ ∨
      (t.contexts i).calls = (s.contexts i).calls ∧ 0 < t.stepsLeft i := by
  have goes (u : System ι p) {phase : Phase} (hphase : 0 < phase.tryLock.stepsLeft) :
      ((u.goto i phase).contexts i).calls = (u.contexts i).calls ∧ 0 < (u.goto i phase).stepsLeft i := by
    have hi : (u.goto i phase).contexts i = ⟨(u.contexts i).calls, phase⟩ := update_self ..
    refine ⟨by rw [hi], ?_⟩
    show 0 < (((u.goto i phase).contexts i).phase.tryLock).stepsLeft
    rw [hi]
    exact hphase
  have returns (u : System ι p) : (u.finish i).contexts i = ⟨(u.contexts i).calls.tail, .idle⟩ := update_self ..
  unfold proceed at hstep
  split at hstep
  · cases hstep
  · cases hstep
  · next writer left hphase =>
    split at hstep
    · next hw =>
      split at hstep
      · cases hstep
        apply Or.inr
        apply goes
        rw [Phase.tryLock, if_pos hw]
        exact Nat.succ_pos _
      · cases hstep
        exact .inr (goes _ (Nat.succ_pos _))
    · cases hstep
      exact .inl (returns s)
  · cases hstep
    exact .inr (goes _ (Nat.succ_pos _))
  · cases hstep
    exact .inr (goes _ (Nat.succ_pos _))
  · cases hstep
    exact .inl (returns _)

theorem stepsLeft_own {s t : System ι p} {i : ι} {a : Action} (hstep : s.step (i, a) = some t)
    (h : 0 < s.stepsLeft i) : a = .proceed ∧ t.stepsLeft i + 1 = s.stepsLeft i := by
  have hidle {phase : Phase} {calls : List (List (Argument p))} (hi : s.contexts i = ⟨calls, phase⟩)
      (hphase : phase.tryLock = .idle) : s.stepsLeft i = 0 := by
    show ((s.contexts i).phase.tryLock).stepsLeft = 0
    rw [hi, hphase]
    rfl
  cases a with
  | readTimestamp timestamp =>
    simp only [System.step] at hstep
    split at hstep
    · next hi =>
      rw [hidle hi rfl] at h
      cases h
    · cases hstep
  | exchange =>
    simp only [System.step] at hstep
    split at hstep
    · next hi =>
      rw [hidle hi rfl] at h
      cases h
    · cases hstep
  | proceed => exact ⟨rfl, TryLock.stepsLeft_own (refines s (i, .proceed) t hstep) h⟩

theorem proceed_holds {s t : System ι p} {i : ι} (hstep : s.step (i, .proceed) = some t)
    (h : (s.contexts i).phase.holds = true) : (t.contexts i).phase.holds = true ∨ t.taken = false := by
  have hlock : TryLock.Steps Message.transportOps s.tryLock (i, .proceed) t.tryLock := refines s (i, .proceed) t hstep
  have hphase : (s.tryLock.phases i).holds = true := (Phase.holds_tryLock _).trans h
  have hnext : (t.tryLock.phases i).holds = (t.contexts i).phase.holds := Phase.holds_tryLock _
  rcases TryLock.step_cases hlock with ⟨call, ha, -, -⟩ | ⟨-, hi, -⟩ | ⟨op, left, -, -, ht⟩ | ⟨-, -, ht⟩
  · cases ha
  · rw [hi] at hphase
    cases hphase
  · rw [← hnext, ht, TryLock.State.setPhase_self]
    exact .inl rfl
  · exact .inr (congrArg TryLock.State.taken ht)

theorem proceed_exchanges {s t : System ι p} {i : ι} (hstep : s.step (i, .proceed) = some t) :
    t.exchanges = s.exchanges := by
  simp only [System.step, proceed] at hstep
  repeat' split at hstep
  all_goals
    cases hstep
    try rfl

theorem exchanges_step {s t : System ι p} {a : ι × Action} (hstep : s.step a = some t) : s.exchanges <+: t.exchanges := by
  obtain ⟨i, a⟩ := a
  cases a with
  | readTimestamp timestamp =>
    simp only [System.step] at hstep
    split at hstep <;> cases hstep
    exact List.prefix_refl _
  | exchange =>
    simp only [System.step] at hstep
    split at hstep <;> cases hstep
    exact List.prefix_append _ _
  | proceed => rw [proceed_exchanges hstep]

theorem won_step {s t : System ι p} {a : ι × Action} (hstep : s.step a = some t) : s.won <+: t.won :=
  (exchanges_step hstep).filter _

omit [DecidableEq ι] in
theorem stepsLeft_of_holds {s : System ι p} {i : ι} (h : (s.contexts i).phase.holds = true) : 0 < s.stepsLeft i := by
  have hlock := (Phase.holds_tryLock (s.contexts i).phase).trans h
  show 0 < ((s.contexts i).phase.tryLock).stepsLeft
  cases hphase : (s.contexts i).phase.tryLock with
  | emitting left => exact Nat.succ_pos _
  | _ =>
    rw [hphase] at hlock
    cases hlock

theorem proceed_enabled {s : System ι p} {i : ι} (h : 0 < s.stepsLeft i) : ∃ t, s.step (i, .proceed) = some t := by
  show ∃ t, s.proceed i = some t
  unfold proceed
  split
  · next hphase =>
    have hzero : s.stepsLeft i = 0 := by
      show ((s.contexts i).phase.tryLock).stepsLeft = 0
      rw [hphase]
      rfl
    rw [hzero] at h
    cases h
  · next hphase =>
    have hzero : s.stepsLeft i = 0 := by
      show ((s.contexts i).phase.tryLock).stepsLeft = 0
      rw [hphase]
      rfl
    rw [hzero] at h
    cases h
  · split
    · split <;> exact ⟨_, rfl⟩
    · exact ⟨_, rfl⟩
  all_goals exact ⟨_, rfl⟩

/-- What a step of the logger gives the transport: nothing, or one operation of the
context that has the writer. -/
theorem step_sends {s t : System ι p} {i : ι} {a : Action} (hstep : s.step (i, a) = some t) :
    (t.received = s.received ∧ (t.taken = false → s.taken = false ∨ (s.contexts i).phase = .committed) ∧
      ∀ j, (t.contexts j).phase = .committed → (s.contexts j).phase = .committed) ∨
    ∃ op, t.received = s.received ++ [op] ∧ (s.contexts i).phase.holds = true ∧
      (s.contexts i).phase ≠ .committed ∧ t.taken = s.taken ∧
      (∀ j, (t.contexts j).phase = .committed → (s.contexts j).phase = .committed ∨ j = i ∧ op = .commit) := by
  have other {u : System ι p} {c : Context p} (hc : c.phase ≠ .committed) (j : ι)
      (hj : ((u.setContext i c).contexts j).phase = .committed) : (u.contexts j).phase = .committed := by
    by_cases hji : j = i
    · subst hji
      rw [show (u.setContext j c).contexts j = c from Function.update_self ..] at hj
      exact absurd hj hc
    · rwa [show (u.setContext i c).contexts j = u.contexts j from Function.update_of_ne hji ..] at hj
  cases a with
  | readTimestamp timestamp =>
    simp only [System.step] at hstep
    split at hstep
    · cases hstep
      exact .inl ⟨rfl, fun hfree => .inl hfree, other (by simp)⟩
    · cases hstep
  | exchange =>
    simp only [System.step] at hstep
    split at hstep
    · cases hstep
      refine .inl ⟨rfl, fun hfree => ?_, fun j hj => other (u := ⟨true, _, _, _⟩) (by simp) j hj⟩
      cases hfree
    · cases hstep
  | proceed =>
    simp only [System.step, proceed] at hstep
    split at hstep
    · cases hstep
    · cases hstep
    · next writer left hphase =>
      split at hstep
      · next hw =>
        have hholds : (s.contexts i).phase.holds = true := by rw [hphase, Phase.holds, hw]; rfl
        split at hstep
        · cases hstep
          exact .inr ⟨_, rfl, hholds, by simp [hphase], rfl, fun j hj => .inl (other (u := s.send _) (by simp) j hj)⟩
        · cases hstep
          exact .inr ⟨_, rfl, hholds, by simp [hphase], rfl, fun j hj => .inl (other (u := s.send _) (by simp) j hj)⟩
      · cases hstep
        exact .inl ⟨rfl, fun hfree => .inl hfree, other (by simp)⟩
    · next hphase =>
      cases hstep
      exact .inr ⟨_, rfl, by rw [hphase]; rfl, by simp [hphase], rfl,
        fun j hj => .inl (other (u := s.send _) (by simp) j hj)⟩
    · next hphase =>
      cases hstep
      refine .inr ⟨_, rfl, by rw [hphase]; rfl, by simp [hphase], rfl, fun j hj => ?_⟩
      by_cases hji : j = i
      · exact .inr ⟨hji, rfl⟩
      · rw [show ((s.send .commit).goto i .committed).contexts j = s.contexts j from Function.update_of_ne hji ..] at hj
        exact .inl hj
    · next hphase =>
      cases hstep
      exact .inl ⟨rfl, fun _ => .inr hphase, fun j hj => other (u := { s with taken := false }) (by simp) j hj⟩

theorem step_calls {L σ : Type} {label : TransportOp → L} {call : σ → L → Option σ} {s t : System ι p} {i : ι}
    {a : Action} (hstep : s.step (i, a) = some t) {c c' : σ}
    (h : ((t.received.drop s.received.length).map label).foldlM call c = some c') :
    c' = c ∧ t.received = s.received ∨ ∃ op, t.received = s.received ++ [op] ∧ call c (label op) = some c' := by
  rcases step_sends hstep with ⟨hsame, -⟩ | ⟨op, hsent, -⟩
  · rw [hsame, List.drop_length] at h
    cases h
    exact .inl ⟨rfl, hsame⟩
  · rw [hsent, List.drop_left] at h
    exact .inr ⟨op, hsent, by simpa using h⟩

theorem stepsLeft_exchanged (s : System ι p) (i : ι) (arguments : List (Argument p)) (timestamp : BitVec 64) :
    (s.exchanged i arguments timestamp).stepsLeft i =
      if s.taken then 1 else (frame (vlogWrites timestamp arguments).flatten).length + 2 := by
  unfold stepsLeft
  rw [tryLock_exchanged, TryLock.State.attempted, TryLock.State.setPhase_self]
  show (if s.taken = true then TryLock.Phase.refused else _).stepsLeft = _
  cases s.taken with
  | false =>
    rw [if_neg (by simp), if_neg (by simp)]
    show (World.frameOps _).length + 1 = _
    rw [World.frameOps, List.length_append, List.length_map, List.length_singleton]
    rfl
  | true => rfl

end System

/-- **No call waits for another.** From its exchange on a call takes one step of
    its own where the exchange found the flag set, and two more than its frame has
    bytes otherwise. Whatever the other contexts do in between, each of these steps
    can be taken when it is due, and the call has returned after the last. -/
theorem calls_wait_free {ι : Type} [DecidableEq ι] {p : Platform} (s : System ι p) (i : ι)
    (arguments : List (Argument p)) (rest : List (List (Argument p))) (timestamp : BitVec 64)
    (hi : s.contexts i = ⟨arguments :: rest, .stamped timestamp⟩) (t : System ι p)
    (hexchange : s.step (i, .exchange) = some t) (tr : Runs.Trace (ι × Action) (System ι p))
    (hrun : Runs.IsRun (fun s a t => System.step s a = some t) t tr) :
    let own := tr.countP fun x => decide (x.1.1 = i)
    let total := if s.taken then 1 else (frame (vlogWrites timestamp arguments).flatten).length + 2
    (own < total → ∃ u, (Runs.final t tr).step (i, .proceed) = some u) ∧
      (own = total → (Runs.final t tr).contexts i = ⟨rest, .idle⟩) := by
  intro own total
  have ht : t = s.exchanged i arguments timestamp := by
    simp only [System.step, hi, Option.some.injEq] at hexchange
    exact hexchange.symm
  have htotal : t.stepsLeft i = total := by rw [ht, System.stepsLeft_exchanged]
  let InCall (u : System ι p) : Prop := (0 < u.stepsLeft i → (u.contexts i).calls = arguments :: rest) ∧
    (u.stepsLeft i = 0 → u.contexts i = ⟨rest, .idle⟩)
  have hbegin : InCall t := by
    refine ⟨fun _ => ?_, fun hzero => ?_⟩
    · have hcontext : t.contexts i =
          ⟨(s.contexts i).calls, .writing (System.getWriter s.taken) (vlogWrites timestamp arguments)⟩ := by
        rw [ht]
        exact update_self ..
      rw [hcontext, hi]
    · rw [htotal] at hzero
      simp only [total] at hzero
      split at hzero <;> cases hzero
  have hcount (hle : own ≤ total) : (Runs.final t tr).stepsLeft i + own = total ∧ InCall (Runs.final t tr) := by
    rw [← htotal] at hle ⊢
    refine @Runs.countdown _ _ _ InCall (fun u => u.stepsLeft i) (fun a => decide (a.1 = i)) ?_ ?_ _ _ hbegin hrun hle
    · intro u a v hu hstep ha hpos
      obtain ⟨j, a⟩ := a
      have hj : j = i := of_decide_eq_true ha
      subst hj
      obtain ⟨rfl, hone⟩ := System.stepsLeft_own hstep hpos
      refine ⟨hone, ?_⟩
      rcases System.proceed_returns hstep with hreturned | ⟨hcalls, hmore⟩
      · rw [hu.1 hpos] at hreturned
        refine ⟨fun hleft => ?_, fun _ => hreturned⟩
        have hzero : v.stepsLeft j = 0 := by
          show ((v.contexts j).phase.tryLock).stepsLeft = 0
          rw [hreturned]
          rfl
        rw [hzero] at hleft
        cases hleft
      · exact ⟨fun _ => hcalls.trans (hu.1 hpos), fun hzero => absurd hzero (by omega)⟩
    · intro u a v hu hstep ha
      obtain ⟨j, a⟩ := a
      have hij : i ≠ j := fun heq => by simp [heq] at ha
      have hsame := System.contexts_other hstep hij
      have hleft : v.stepsLeft i = u.stepsLeft i := by
        show ((v.contexts i).phase.tryLock).stepsLeft = ((u.contexts i).phase.tryLock).stepsLeft
        rw [hsame]
      refine ⟨hleft, ?_⟩
      show (0 < v.stepsLeft i → _) ∧ (v.stepsLeft i = 0 → _)
      rw [hleft, hsame]
      exact hu
  constructor
  · intro hlt
    apply System.proceed_enabled
    have := (hcount (Nat.le_of_lt hlt)).1
    omega
  · intro heq
    obtain ⟨hleft, hcall⟩ := hcount (Nat.le_of_eq heq)
    exact hcall.2 (by omega)

theorem calls_wait_free_interrupted :
    let s : System Bool ⟨true, true, true⟩ :=
      (System.initial fun _ => [[.unsignedInteger 0]]).goto true (.stamped 5)
    let t := s.exchanged true [.unsignedInteger 0] 5
    ∃ tr, Runs.follow System.step t [(true, .proceed), (false, .readTimestamp 6), (false, .exchange), (true, .proceed),
        (true, .proceed), (false, .proceed), (true, .proceed), (true, .proceed), (true, .proceed)] = some tr ∧
      (Runs.final t tr).contexts true = ⟨[], .idle⟩ := by
  intro s t
  refine ⟨_, rfl, ?_⟩
  refine (calls_wait_free s true [.unsignedInteger 0] [] 5 rfl t rfl _ (Runs.isRun_follow [(true, .proceed),
    (false, .readTimestamp 6), (false, .exchange), (true, .proceed), (true, .proceed), (false, .proceed),
    (true, .proceed), (true, .proceed), (true, .proceed)] rfl)).2 ?_
  decide

end Postform
