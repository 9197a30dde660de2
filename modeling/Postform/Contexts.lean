import Postform.Lib.Ownership
import Postform.Lib.Runs
import Postform.SerialWriter

/- Log calls from many contexts. Threads and interrupts call `Logger::log` on one
   `SerialLogger`; a step of the system is one atomic step of one of them: it
   reads the timestamp, exchanges `m_taken`, gives the transport one byte or the
   commit, or stores `m_taken` back. `exchanges` is the history of the exchanges:
   who called, with what, and whether the flag was found set.

   A context that found it clear holds the writer until its last store, and what
   it has sent and what its writer has still to send make up its frame
   (`Phase.remaining`). So the transport has the frames of the calls that won,
   one after the other, the last one perhaps begun only. -/
namespace Postform

open Function Ownership

/-- One call of the transport in the loop of `write`, at the byte `value`: what
is sent, the marker, and whether the loop is past the byte. -/
def SerialWriter.sendByte (marker : Nat) (value : UInt8) : UInt8 × Nat × Bool :=
  if marker = 255 then (markerByte marker, 1, false)
  else if value = 0 then (markerByte marker, 1, true)
  else (value, (marker + 1) % 2 ^ 32, true)

theorem SerialWriter.writeLoop_sendByte (marker : Nat) (value : UInt8) (data : Bytes) :
    let (sent, m, past) := sendByte marker value
    writeLoop marker (value :: data) =
      (sent :: (writeLoop m (if past then data else value :: data)).1,
        (writeLoop m (if past then data else value :: data)).2) := by
  by_cases hm : marker = 255
  · subst hm
    by_cases hv : value = 0 <;> simp [sendByte, writeLoop, writeByte, hv]
  · by_cases hv : value = 0 <;> simp [sendByte, writeLoop, writeByte, hm, hv]

/-- The next byte of the `write` calls of a message. -/
def nextByte : List Bytes → Option (UInt8 × List Bytes)
  | [] => none
  | [] :: rest => nextByte rest
  | (value :: data) :: rest => some (value, data :: rest)

theorem nextByte_flatten : ∀ writes : List Bytes, writes.flatten =
    match nextByte writes with
    | none => []
    | some (value, rest) => value :: rest.flatten
  | [] => rfl
  | [] :: rest => by
    have ih := nextByte_flatten rest
    rwa [List.flatten_cons, List.nil_append, nextByte]
  | (value :: data) :: rest => rfl

/-- Where a context is in its call. -/
inductive Phase where
  | idle
  | stamped (timestamp : BitVec 64)
  | writing (writer : SerialWriter Unit Unit) (left : List Bytes)
  | markerSent
  | zeroSent
  | committed
  deriving DecidableEq, Repr

/-- A context: the calls it has still to make, the current one first. -/
structure Context (p : Platform) where
  calls : List (List (Argument p))
  phase : Phase

/-- An exchange on `m_taken`, and the value it found. -/
structure Exchange (ι : Type) (p : Platform) where
  context : ι
  arguments : List (Argument p)
  timestamp : BitVec 64
  found : Bool

/-- The logger, its transport and the contexts. -/
structure System (ι : Type) (p : Platform) where
  taken : Bool
  received : List TransportOp
  contexts : ι → Context p
  exchanges : List (Exchange ι p)

inductive Action where
  | readTimestamp (timestamp : BitVec 64)
  | exchange
  | proceed
  deriving DecidableEq, Repr

namespace System

variable {ι : Type} [DecidableEq ι] {p : Platform}

def initial (program : ι → List (List (Argument p))) : System ι p :=
  ⟨false, [], fun i => ⟨program i, .idle⟩, []⟩

def setContext (s : System ι p) (i : ι) (c : Context p) : System ι p :=
  { s with contexts := update s.contexts i c }

/-- The context `i` goes on to `phase`. -/
def goto (s : System ι p) (i : ι) (phase : Phase) : System ι p := s.setContext i ⟨(s.contexts i).calls, phase⟩

/-- The call of the context `i` returns. -/
def finish (s : System ι p) (i : ι) : System ι p := s.setContext i ⟨(s.contexts i).calls.tail, .idle⟩

/-- The transport gets `op`. -/
def send (s : System ι p) (op : TransportOp) : System ι p := { s with received := s.received ++ [op] }

/-- The code behind the exchange, up to its next atomic step. A writer that is
not Writable writes and commits nothing. -/
def proceed (s : System ι p) (i : ι) : Option (System ι p) :=
  match (s.contexts i).phase with
  | .idle => none
  | .stamped _ => none
  | .writing writer left =>
    if writer.state = .writable then
      match nextByte left with
      | some (value, rest) =>
        let (sent, marker, past) := SerialWriter.sendByte writer.marker value
        some ((s.send (.write sent)).goto i (.writing { writer with marker := marker } (if past then rest else left)))
      | none => some ((s.send (.write (SerialWriter.markerByte writer.marker))).goto i .markerSent)
    else some (s.finish i)
  | .markerSent => some ((s.send (.write 0)).goto i .zeroSent)
  | .zeroSent => some ((s.send .commit).goto i .committed)
  | .committed => some (finish { s with taken := false } i)

/-- What `getWriter` returns for the value its exchange found. -/
def getWriter (found : Bool) : SerialWriter Unit Unit := if found then .invalid else .acquired () ()

/-- One atomic step of one context. -/
def step (s : System ι p) : ι × Action → Option (System ι p)
  | (i, .readTimestamp timestamp) =>
    match s.contexts i with
    | ⟨_ :: _, .idle⟩ => some (s.goto i (.stamped timestamp))
    | _ => none
  | (i, .exchange) =>
    match s.contexts i with
    | ⟨arguments :: _, .stamped timestamp⟩ =>
      let called : System ι p := { s with
        taken := true
        exchanges := s.exchanges ++ [⟨i, arguments, timestamp, s.taken⟩] }
      some (called.goto i (.writing (getWriter s.taken) (vlogWrites timestamp arguments)))
    | _ => none
  | (i, .proceed) => s.proceed i

/-! What is claimed of a state. -/

end System

/-- The message of a call, framed. -/
def Exchange.frame {ι : Type} {p : Platform} (e : Exchange ι p) : Bytes :=
  Postform.frame (vlogWrites e.timestamp e.arguments).flatten

/-- The context has the writer. -/
def Phase.holds : Phase → Bool
  | .writing writer _ => writer.state == .writable
  | .markerSent | .zeroSent | .committed => true
  | .idle | .stamped _ => false

/-- The bytes the context has still to send of its frame. -/
def Phase.remaining : Phase → Bytes
  | .writing writer left =>
    (SerialWriter.writeLoop writer.marker left.flatten).1 ++
      [SerialWriter.markerByte (SerialWriter.writeLoop writer.marker left.flatten).2] ++ [0]
  | .markerSent => [0]
  | .idle | .stamped _ | .zeroSent | .committed => []

/-- The calls whose exchange is still to come. -/
def Context.pending {p : Platform} (c : Context p) : List (List (Argument p)) :=
  match c.phase with
  | .idle | .stamped _ => c.calls
  | _ => c.calls.tail

namespace System

variable {ι : Type} [DecidableEq ι] {p : Platform}

/-- The calls that found the flag clear, in the order of their exchanges. -/
def won (s : System ι p) : List (Exchange ι p) := s.exchanges.filter fun e => !e.found

/-- The exchanges of one context. -/
def exchangesOf (s : System ι p) (i : ι) : List (Exchange ι p) := s.exchanges.filter fun e => e.context = i

/-- The context of `e` is in the call of `e`, with the writer. -/
def InProgress (s : System ι p) (e : Exchange ι p) : Prop :=
  (s.contexts e.context).phase.holds = true ∧ (s.exchangesOf e.context).getLast? = some e

/-- No message is torn: the transport has the whole frames of the calls that
found the flag clear, each once, in the order of their exchanges, but for the
last one, which may be in progress and begun only; and every call of a context,
in its order, has made its one exchange or has it still to make. -/
structure Separated (program : ι → List (List (Argument p))) (s : System ι p) : Prop where
  frames : ∃ complete, (s.won = complete ∧ SerialWriter.opBytes s.received = (complete.map Exchange.frame).flatten) ∨
    ∃ e sent, s.won = complete ++ [e] ∧ s.InProgress e ∧ sent <+: e.frame ∧
      SerialWriter.opBytes s.received = (complete.map Exchange.frame).flatten ++ sent
  calls : ∀ i, (s.exchangesOf i).map Exchange.arguments ++ (s.contexts i).pending = program i

/-! The invariant. -/

/-- The writer a context owns, if it has it. -/
def owner (s : System ι p) (i : ι) : Option Unit := if (s.contexts i).phase.holds then some () else none

/-- The flag is set while one context has the writer, and what that context has
sent and has still to send is the frame of its call. -/
structure Inv (program : ι → List (List (Argument p))) (s : System ι p) : Prop where
  lock : Consistent (fun _ : Unit => s.taken) s.owner
  free : s.taken = false → SerialWriter.opBytes s.received = (s.won.map Exchange.frame).flatten
  held : ∀ i, (s.contexts i).phase.holds = true → ∃ complete e sent, s.won = complete ++ [e] ∧ e.context = i ∧
    (s.exchangesOf i).getLast? = some e ∧ SerialWriter.opBytes s.received = (complete.map Exchange.frame).flatten ++ sent ∧
    sent ++ (s.contexts i).phase.remaining = e.frame
  calls : ∀ i, (s.exchangesOf i).map Exchange.arguments ++ (s.contexts i).pending = program i

theorem separated_of_inv {program : ι → List (List (Argument p))} {s : System ι p} (h : Inv program s) :
    Separated program s := by
  refine ⟨?_, h.calls⟩
  cases htaken : s.taken with
  | false => exact ⟨s.won, .inl ⟨rfl, h.free htaken⟩⟩
  | true =>
    obtain ⟨i, hi⟩ := (h.lock.taken_iff ()).mp htaken
    have hholds : (s.contexts i).phase.holds = true := by
      by_contra hn
      simp [owner, hn] at hi
    obtain ⟨complete, e, sent, hwon, rfl, hlast, hbytes, hframe⟩ := h.held i hholds
    exact ⟨complete, .inr ⟨e, sent, hwon, ⟨hholds, hlast⟩, ⟨_, hframe⟩, hbytes⟩⟩

theorem inv_initial (program : ι → List (List (Argument p))) : Inv program (initial program) where
  lock := consistent_initial
  free := fun _ => rfl
  held := fun i h => by cases h
  calls := fun i => rfl

omit [DecidableEq ι] in
theorem owner_holds {s : System ι p} {i : ι} (h : (s.contexts i).phase.holds = true) : s.owner i = some () := by
  rw [owner, if_pos h]

omit [DecidableEq ι] in
theorem owner_not_holds {s : System ι p} {i : ι} (h : (s.contexts i).phase.holds = false) : s.owner i = none := by
  rw [owner, if_neg (by simp [h])]

theorem owner_setContext (s : System ι p) (i : ι) (c : Context p) :
    (s.setContext i c).owner = update s.owner i (if c.phase.holds then some () else none) := by
  funext j
  by_cases h : j = i
  · subst h; simp [owner, setContext]
  · simp [owner, setContext, h]

theorem calls_setContext {program : ι → List (List (Argument p))} {s : System ι p}
    (h : ∀ j, (s.exchangesOf j).map Exchange.arguments ++ (s.contexts j).pending = program j) {i : ι} {c : Context p}
    (hpending : c.pending = (s.contexts i).pending) (j : ι) :
    ((s.setContext i c).exchangesOf j).map Exchange.arguments ++ ((s.setContext i c).contexts j).pending = program j := by
  rw [← h j]
  by_cases hji : j = i
  · subst hji
    simp only [setContext, update_self, hpending]
    rfl
  · simp only [setContext, update_of_ne hji]
    rfl

theorem Inv.private {program : ι → List (List (Argument p))} {s : System ι p} (h : Inv program s) {i : ι}
    {c : Context p} (hi : (s.contexts i).phase.holds = false) (hc : c.phase.holds = false)
    (hpending : c.pending = (s.contexts i).pending) : Inv program (s.setContext i c) where
  lock := by
    rw [owner_setContext, hc, if_neg (by simp), ← owner_not_holds hi, update_eq_self]
    exact h.lock
  free := h.free
  held := by
    intro j hj
    by_cases hji : j = i
    · subst hji
      simp only [setContext, update_self] at hj
      rw [hc] at hj
      cases hj
    · simp only [setContext, update_of_ne hji] at hj ⊢
      exact h.held j hj
  calls := calls_setContext h.calls hpending

theorem Inv.transmit {program : ι → List (List (Argument p))} {s : System ι p} (h : Inv program s) {i : ι}
    {op : TransportOp} {phase : Phase} (hi : (s.contexts i).phase.holds = true) (hp : phase.holds = true)
    (hremaining : (s.contexts i).phase.remaining = SerialWriter.opBytes [op] ++ phase.remaining)
    (hpending : Context.pending ⟨(s.contexts i).calls, phase⟩ = (s.contexts i).pending) :
    Inv program ((s.send op).goto i phase) where
  lock := by
    rw [goto, owner_setContext, hp, if_pos rfl, ← owner_holds hi]
    exact (update_eq_self i s.owner).symm ▸ h.lock
  free := by
    intro hfree
    have htaken := (h.lock.taken_iff ()).mpr ⟨i, owner_holds hi⟩
    rw [show s.taken = false from hfree] at htaken
    cases htaken
  held := by
    intro j hj
    by_cases hji : j = i
    · subst hji
      obtain ⟨complete, e, sent, hwon, he, hlast, hbytes, hframe⟩ := h.held j hi
      refine ⟨complete, e, sent ++ SerialWriter.opBytes [op], hwon, he, hlast, ?_, ?_⟩
      · rw [← List.append_assoc, ← hbytes]
        exact List.filterMap_append
      · simp only [goto, setContext, send, update_self]
        rw [List.append_assoc, ← hremaining, hframe]
    · -- no other context has the writer
      have hj' : (s.contexts j).phase.holds = true := by
        simpa [goto, setContext, send, hji] using hj
      exact absurd (h.lock.unique () j i (owner_holds hj') (owner_holds hi)) hji
  calls := calls_setContext (s := s.send op) h.calls hpending

theorem update_flag (b c : Bool) : update (fun _ : Unit => b) () c = fun _ => c := by
  funext u
  simp

theorem Inv.giveBack {program : ι → List (List (Argument p))} {s : System ι p} (h : Inv program s) {i : ι}
    (hi : (s.contexts i).phase = .committed) : Inv program (finish { s with taken := false } i) := by
  have hholds : (s.contexts i).phase.holds = true := by rw [hi]; rfl
  have hothers (j : ι) (hji : j ≠ i) : (s.contexts j).phase.holds = false := by
    by_contra hj
    exact hji (h.lock.unique () j i (owner_holds (by simpa using hj)) (owner_holds hholds))
  refine ⟨?_, fun _ => ?_, fun j hj => ?_, fun j => ?_⟩
  · rw [finish, owner_setContext, Phase.holds, if_neg (by simp)]
    have := h.lock.release (owner_holds hholds)
    rwa [update_flag] at this
  · obtain ⟨complete, e, sent, hwon, he, hlast, hbytes, hframe⟩ := h.held i hholds
    -- nothing of the frame is left to send
    rw [hi, show Phase.committed.remaining = [] from rfl, List.append_nil] at hframe
    have hwon' : (finish { s with taken := false } i).won = complete ++ [e] := hwon
    have hbytes' : SerialWriter.opBytes (finish { s with taken := false } i).received =
        (complete.map Exchange.frame).flatten ++ sent := hbytes
    rw [hwon', hbytes', hframe]
    simp
  · by_cases hji : j = i
    · subst hji
      simp [finish, setContext, Phase.holds] at hj
    · simp only [finish, setContext, update_of_ne hji] at hj
      rw [hothers j hji] at hj
      cases hj
  · have hpending : Context.pending ⟨(s.contexts i).calls.tail, .idle⟩ = (s.contexts i).pending := by
      rw [Context.pending, Context.pending, hi]
    exact calls_setContext (s := { s with taken := false }) h.calls hpending j

theorem remaining_sendByte (writer : SerialWriter Unit Unit) {left rest : List Bytes} {value : UInt8}
    (hbyte : nextByte left = some (value, rest)) :
    let (sent, marker, past) := SerialWriter.sendByte writer.marker value
    (Phase.writing writer left).remaining =
      sent :: (Phase.writing { writer with marker := marker } (if past then rest else left)).remaining := by
  have hnext := nextByte_flatten left
  simp only [hbyte] at hnext
  have hloop := SerialWriter.writeLoop_sendByte writer.marker value rest.flatten
  have hleft : ∀ past : Bool, (if past then rest else left).flatten =
      if past then rest.flatten else value :: rest.flatten := by
    intro past
    cases past
    · exact hnext
    · rfl
  simp only [Phase.remaining, hleft, hnext, hloop, List.cons_append]

/-- The state after the exchange of a call. -/
def exchanged (s : System ι p) (i : ι) (arguments : List (Argument p)) (timestamp : BitVec 64) : System ι p :=
  goto { s with taken := true, exchanges := s.exchanges ++ [⟨i, arguments, timestamp, s.taken⟩] } i
    (.writing (getWriter s.taken) (vlogWrites timestamp arguments))

theorem exchangesOf_exchanged (s : System ι p) (i j : ι) (arguments : List (Argument p)) (timestamp : BitVec 64) :
    (s.exchanged i arguments timestamp).exchangesOf j =
      s.exchangesOf j ++ if i = j then [⟨i, arguments, timestamp, s.taken⟩] else [] := by
  simp only [exchangesOf, exchanged, goto, setContext, List.filter_append]
  by_cases h : i = j <;> simp [h]

theorem won_exchanged (s : System ι p) (i : ι) (arguments : List (Argument p)) (timestamp : BitVec 64) :
    (s.exchanged i arguments timestamp).won =
      s.won ++ if s.taken then [] else [⟨i, arguments, timestamp, s.taken⟩] := by
  simp only [won, exchanged, goto, setContext, List.filter_append]
  cases s.taken <;> simp

/-- The exchange of a call. A context that finds the flag clear has its whole
frame still to send. -/
theorem Inv.exchange {program : ι → List (List (Argument p))} {s : System ι p} (h : Inv program s) {i : ι}
    {arguments : List (Argument p)} {rest : List (List (Argument p))} {timestamp : BitVec 64}
    (hi : s.contexts i = ⟨arguments :: rest, .stamped timestamp⟩) :
    Inv program (s.exchanged i arguments timestamp) := by
  have hnot : (s.contexts i).phase.holds = false := by rw [hi]; rfl
  have hphase : ((s.exchanged i arguments timestamp).contexts i) =
      ⟨arguments :: rest, .writing (getWriter s.taken) (vlogWrites timestamp arguments)⟩ := by
    simp [exchanged, goto, setContext, hi]
  have hother (j : ι) (hji : j ≠ i) : (s.exchanged i arguments timestamp).contexts j = s.contexts j := by
    simp [exchanged, goto, setContext, hji]
  refine ⟨?_, (nomatch ·), fun j hj => ?_, fun j => ?_⟩
  · rw [exchanged, goto, owner_setContext]
    cases htaken : s.taken with
    | false =>
      have hacquire := (htaken ▸ h.lock).acquire (l := ()) rfl (owner_not_holds hnot)
      rwa [update_flag] at hacquire
    | true =>
      have hnone : update s.owner i none = s.owner := by rw [← owner_not_holds hnot, update_eq_self]
      exact hnone.symm ▸ htaken ▸ h.lock
  · cases htaken : s.taken with
    | false =>
      -- the flag was clear, so this context is the only one with the writer
      have hji : j = i := by
        by_contra hji
        rw [hother j hji] at hj
        have := (h.lock.taken_iff ()).mpr ⟨j, owner_holds hj⟩
        rw [htaken] at this
        cases this
      subst hji
      refine ⟨s.won, ⟨j, arguments, timestamp, s.taken⟩, [], ?_, rfl, ?_, ?_, ?_⟩
      · rw [won_exchanged, htaken]
        rfl
      · rw [exchangesOf_exchanged, if_pos rfl, List.getLast?_concat]
      · rw [List.append_nil]
        exact h.free htaken
      · rw [hphase, htaken]
        rfl
    | true =>
      -- the flag was set: this context got an invalid writer, the others are as they were
      have hji : j ≠ i := by
        intro heq
        subst heq
        rw [hphase, htaken] at hj
        cases hj
      rw [hother j hji] at hj
      obtain ⟨complete, e, sent, hwon, he, hlast, hbytes, hframe⟩ := h.held j hj
      refine ⟨complete, e, sent, ?_, he, ?_, hbytes, by rw [hother j hji, hframe]⟩
      · rw [won_exchanged, htaken, if_pos rfl, List.append_nil, hwon]
      · rw [exchangesOf_exchanged, if_neg (Ne.symm hji), List.append_nil, hlast]
  · rw [exchangesOf_exchanged]
    by_cases hji : j = i
    · subst hji
      have := h.calls j
      rw [hi] at this
      rw [hphase, if_pos rfl]
      simpa [Context.pending] using this
    · rw [hother j hji, if_neg (Ne.symm hji), List.append_nil]
      exact h.calls j

theorem Inv.step {program : ι → List (List (Argument p))} {s t : System ι p} {a : ι × Action} (h : Inv program s)
    (hstep : s.step a = some t) : Inv program t := by
  obtain ⟨i, a⟩ := a
  cases a with
  | readTimestamp timestamp =>
    simp only [System.step] at hstep
    split at hstep
    · next hi =>
      cases hstep
      exact h.private (by rw [hi]; rfl) rfl (by rw [hi]; rfl)
    · cases hstep
  | exchange =>
    simp only [System.step] at hstep
    split at hstep
    · next hi =>
      cases hstep
      exact h.exchange hi
    · cases hstep
  | proceed =>
    simp only [System.step, proceed] at hstep
    split at hstep
    · cases hstep
    · cases hstep
    · next writer left hphase =>
      split at hstep
      · next hw =>
        have hholds : (s.contexts i).phase.holds = true := by rw [hphase, Phase.holds, hw]; rfl
        -- a byte of a `write` call, or the marker that `commit` sends after the last
        split at hstep
        · next value rest hbyte =>
          cases hstep
          have hsend := remaining_sendByte writer hbyte
          exact h.transmit hholds (by rw [Phase.holds, hw]; rfl) (by rw [hphase]; exact hsend)
            (by rw [Context.pending, Context.pending, hphase])
        · next hbyte =>
          cases hstep
          have hnext := nextByte_flatten left
          simp only [hbyte] at hnext
          refine h.transmit hholds rfl ?_ (by rw [Context.pending, Context.pending, hphase])
          rw [hphase, Phase.remaining, hnext]
          rfl
      · next hw =>
        -- an invalid writer: the call is over
        cases hstep
        exact h.private (by rw [hphase, Phase.holds]; simpa using hw) rfl (by rw [Context.pending, Context.pending, hphase])
    · next hphase =>
      cases hstep
      exact h.transmit (by rw [hphase]; rfl) rfl (by rw [hphase]; rfl) (by rw [Context.pending, Context.pending, hphase])
    · next hphase =>
      cases hstep
      exact h.transmit (by rw [hphase]; rfl) rfl (by rw [hphase]; rfl) (by rw [Context.pending, Context.pending, hphase])
    · next hphase =>
      cases hstep
      exact h.giveBack hphase

end System

/-- **Messages never interleave**: in every state of every run of the contexts,
    the transport has whole frames of the calls that found the flag clear and at
    most one that is begun, and every call has its one place in that history. -/
theorem messages_never_interleave {ι : Type} [DecidableEq ι] {p : Platform} (program : ι → List (List (Argument p)))
    (tr : Runs.Trace (ι × Action) (System ι p))
    (hrun : Runs.IsRun (fun s a t => System.step s a = some t) (System.initial program) tr) :
    Runs.Always (System.Separated program) (System.initial program) tr := by
  have hinv : Runs.Always (System.Inv program) (System.initial program) tr := by
    apply Runs.always_of_step _ (System.inv_initial program) hrun
    intro s a t h hstep
    exact h.step hstep
  exact hinv.imp fun _ => System.separated_of_inv

/-- An interrupt logs while a thread is in the middle of its frame. -/
theorem interrupt_finds_writer_taken : ∃ tr,
    Runs.follow System.step (System.initial (p := ⟨true, true, true⟩) fun _ : Bool => [[.unsignedInteger 0]])
      [(true, .readTimestamp 5), (true, .exchange), (true, .proceed), (false, .readTimestamp 6), (false, .exchange),
        (false, .proceed), (true, .proceed), (true, .proceed), (true, .proceed), (true, .proceed),
        (true, .proceed)] = some tr ∧
    Runs.Always (System.Separated (p := ⟨true, true, true⟩) fun _ : Bool => [[.unsignedInteger 0]])
      (System.initial fun _ => [[.unsignedInteger 0]]) tr := by
  refine ⟨_, rfl, ?_⟩
  exact messages_never_interleave _ _ (Runs.isRun_follow [(true, .readTimestamp 5), (true, .exchange),
    (true, .proceed), (false, .readTimestamp 6), (false, .exchange), (false, .proceed), (true, .proceed),
    (true, .proceed), (true, .proceed), (true, .proceed), (true, .proceed)] rfl)

end Postform
