import Postform.ContextsLock
import Postform.FileLog
import Postform.RecordLoop

/- Log calls from many threads on one `FileLogger`, up to the file and what the
   record loop makes of it. The writer buffers the message, so a thread that has
   the logger makes three atomic steps: `::write` of the size, `::write` of the
   buffer and the store that gives the logger back.

   The logger refines the lock of `Lib/TryLock` as `SerialLogger` does, with the
   two `::write` calls for the frame. So the file has the records of the calls
   that won, one after the other, and behind them what the last of them has
   written yet. A process that stops anywhere leaves a file from which the loop
   takes all records but that one. -/
namespace Postform

open Function Wire

/-- Where a thread is in its call. -/
inductive FilePhase where
  | idle
  | stamped (timestamp : BitVec 64)
  | writing (writer : FileWriter Unit) (left : List Bytes)
  | sizeWritten (writer : FileWriter Unit)
  | dataWritten
  deriving DecidableEq, Repr

/-- A thread: the calls it has still to make, the current one first. -/
structure FileContext (p : Platform) where
  calls : List (List (Argument p))
  phase : FilePhase

/-- The logger, the `::write` calls made so far, and the threads. -/
structure FileSystem (ι : Type) (p : Platform) where
  taken : Bool
  written : List SysWrite
  contexts : ι → FileContext p
  exchanges : List (Exchange ι p)

variable {ι : Type} {p : Platform}

/-- The `::write` calls for a message. -/
def Message.fileCalls (order : ByteOrder) (fd : Int) (message : Message p) : List SysWrite :=
  FileWriter.recordCalls order fd message.bytes

namespace FileSystem

section
variable [DecidableEq ι] (order : ByteOrder) (fd : Int)

def initial (program : ι → List (List (Argument p))) : FileSystem ι p :=
  ⟨false, [], fun i => ⟨program i, .idle⟩, []⟩

def setContext (s : FileSystem ι p) (i : ι) (c : FileContext p) : FileSystem ι p :=
  { s with contexts := update s.contexts i c }

/-- The thread `i` goes on to `phase`. -/
def goto (s : FileSystem ι p) (i : ι) (phase : FilePhase) : FileSystem ι p :=
  s.setContext i ⟨(s.contexts i).calls, phase⟩

/-- The call of the thread `i` returns. -/
def finish (s : FileSystem ι p) (i : ι) : FileSystem ι p := s.setContext i ⟨(s.contexts i).calls.tail, .idle⟩

/-- A call of `::write`. -/
def sysWrite (s : FileSystem ι p) (fd : Int) (data : Bytes) : FileSystem ι p :=
  { s with written := s.written ++ [⟨fd, data⟩] }

/-- What `getWriter` returns for the value its exchange found. -/
def getWriter (found : Bool) : FileWriter Unit := if found then .invalid else .acquired () fd

/-- The code behind the exchange, up to its next atomic step: the `write` calls
fill the writer's buffer, and `commit` does nothing on a writer without a
logger. -/
def proceed (s : FileSystem ι p) (i : ι) : Option (FileSystem ι p) :=
  match (s.contexts i).phase with
  | .idle => none
  | .stamped _ => none
  | .writing writer left =>
    let writer := writer.writeAll left
    if writer.logger.isSome then
      some ((s.sysWrite writer.fd (order.uint32Bytes writer.data.length)).goto i (.sizeWritten writer))
    else some (s.finish i)
  | .sizeWritten writer => some ((s.sysWrite writer.fd writer.data).goto i .dataWritten)
  | .dataWritten => some (finish { s with taken := false } i)

/-- The exchange of a call. -/
def exchanged (s : FileSystem ι p) (i : ι) (arguments : List (Argument p)) (timestamp : BitVec 64) : FileSystem ι p :=
  goto { s with taken := true, exchanges := s.exchanges ++ [⟨i, arguments, timestamp, s.taken⟩] } i
    (.writing (getWriter fd s.taken) (vlogWrites timestamp arguments))

/-- One atomic step of one thread. -/
def step (s : FileSystem ι p) : ι × Action → Option (FileSystem ι p)
  | (i, .readTimestamp timestamp) =>
    match s.contexts i with
    | ⟨_ :: _, .idle⟩ => some (s.goto i (.stamped timestamp))
    | _ => none
  | (i, .exchange) =>
    match s.contexts i with
    | ⟨arguments :: _, .stamped timestamp⟩ => some (s.exchanged fd i arguments timestamp)
    | _ => none
  | (i, .proceed) => s.proceed order i

/-- The system as a relation. -/
def Steps (s : FileSystem ι p) (a : ι × Action) (t : FileSystem ι p) : Prop := s.step order fd a = some t

end

/-! The logger as a lock. -/

/-- The `::write` calls a thread has still to make. -/
def phaseLock (order : ByteOrder) : FilePhase → TryLock.Phase SysWrite
  | .idle | .stamped _ => .idle
  | .writing writer left =>
    if writer.logger.isSome then .emitting (FileWriter.recordCalls order writer.fd (writer.data ++ left.flatten))
    else .refused
  | .sizeWritten writer => .emitting [⟨writer.fd, writer.data⟩]
  | .dataWritten => .emitting []

def tryLock (order : ByteOrder) (s : FileSystem ι p) : TryLock.State ι (Message p) SysWrite :=
  ⟨s.taken, s.written, fun i => phaseLock order (s.contexts i).phase, s.exchanges.map Exchange.attempt⟩

/-- The step of the lock that an action is. -/
def lockAction (s : FileSystem ι p) : ι × Action → Option (ι × TryLock.Action (Message p))
  | (_, .readTimestamp _) => none
  | (i, .exchange) =>
    match s.contexts i with
    | ⟨arguments :: _, .stamped timestamp⟩ => some (i, .attempt ⟨timestamp, arguments⟩)
    | _ => none
  | (i, .proceed) => some (i, .proceed)

section
variable [DecidableEq ι] {order : ByteOrder} {fd : Int}

theorem tryLock_setContext (s : FileSystem ι p) (i : ι) (c : FileContext p) :
    (s.setContext i c).tryLock order = (s.tryLock order).setPhase i (phaseLock order c.phase) := by
  unfold tryLock setContext TryLock.State.setPhase
  congr 1
  funext j
  by_cases hji : j = i
  · rw [hji]
    simp only [update_self]
  · simp only [update_of_ne hji]

theorem tryLock_exchanged (s : FileSystem ι p) (i : ι) (arguments : List (Argument p)) (timestamp : BitVec 64) :
    (s.exchanged fd i arguments timestamp).tryLock order =
      (s.tryLock order).attempted (Message.fileCalls order fd) i ⟨timestamp, arguments⟩ := by
  rw [exchanged, goto, tryLock_setContext, TryLock.State.attempted]
  unfold tryLock TryLock.State.setPhase
  rw [List.map_append]
  cases s.taken <;> rfl

theorem writeAll_invalid {w : FileWriter Unit} (hw : ¬w.logger.isSome) (writes : List Bytes) : w.writeAll writes = w := by
  induction writes with
  | nil => rfl
  | cons data rest ih =>
    show (w.write data).writeAll rest = w
    rw [FileWriter.write, if_neg hw, ih]

theorem tryLock_sysWrite {s : FileSystem ι p} {i : ι} {dest : Int} {data : Bytes} {phase : FilePhase}
    {left : List SysWrite} (hi : phaseLock order (s.contexts i).phase = .emitting (⟨dest, data⟩ :: left))
    (hphase : phaseLock order phase = .emitting left) :
    TryLock.Steps (Message.fileCalls order fd) (s.tryLock order) (i, .proceed)
      (((s.sysWrite dest data).goto i phase).tryLock order) := by
  unfold TryLock.Steps TryLock.step
  have hleft : (s.tryLock order).phases i = .emitting (⟨dest, data⟩ :: left) := hi
  simp only [hleft, goto, tryLock_setContext, hphase]
  rfl

/-- **The logger refines the lock.** -/
theorem refines : Simulation.Refines (Steps (ι := ι) (p := p) order fd) (TryLock.Steps (Message.fileCalls order fd))
    (tryLock order) lockAction := by
  intro s a t hstep
  obtain ⟨i, a⟩ := a
  have hphase {phase : FilePhase} {calls : List (List (Argument p))} (hi : s.contexts i = ⟨calls, phase⟩) :
      (s.tryLock order).phases i = phaseLock order phase := by
    show phaseLock order (s.contexts i).phase = _
    rw [hi]
  cases a with
  | readTimestamp timestamp =>
    simp only [Steps, FileSystem.step] at hstep
    split at hstep
    · next hi =>
      cases hstep
      show (s.goto i (.stamped timestamp)).tryLock order = s.tryLock order
      rw [goto, tryLock_setContext]
      unfold TryLock.State.setPhase
      rw [show phaseLock order (FilePhase.stamped timestamp) = (s.tryLock order).phases i from (hphase hi).symm,
        update_eq_self]
    · cases hstep
  | exchange =>
    simp only [Steps, FileSystem.step] at hstep
    split at hstep
    · next arguments rest timestamp hi =>
      cases hstep
      have hattempted : (s.exchanged fd i arguments timestamp).tryLock order = _ :=
        tryLock_exchanged s i arguments timestamp
      have hstep : TryLock.Steps (Message.fileCalls order fd) (s.tryLock order) (i, .attempt ⟨timestamp, arguments⟩)
          ((s.exchanged fd i arguments timestamp).tryLock order) := by
        unfold TryLock.Steps TryLock.step
        simp only [hphase hi, phaseLock, hattempted]
      unfold lockAction
      simp only [hi]
      exact hstep
    · cases hstep
  | proceed =>
    simp only [Steps, FileSystem.step, proceed] at hstep
    show TryLock.Steps (Message.fileCalls order fd) (s.tryLock order) (i, .proceed) (t.tryLock order)
    split at hstep
    · cases hstep
    · cases hstep
    · next writer left hi =>
      by_cases hlogger : writer.logger.isSome
      · have hall := FileWriter.writeAll_eq hlogger left
        rw [hall] at hstep
        simp only [if_pos hlogger, Option.some.injEq] at hstep
        subst hstep
        apply tryLock_sysWrite
        · rw [hi, phaseLock, if_pos hlogger]
          rfl
        · rfl
      · rw [writeAll_invalid hlogger, if_neg hlogger] at hstep
        cases hstep
        have hrefused : (s.tryLock order).phases i = .refused := by
          show phaseLock order (s.contexts i).phase = .refused
          rw [hi]
          exact if_neg hlogger
        unfold TryLock.Steps TryLock.step
        simp only [hrefused, finish, tryLock_setContext]
        rfl
    · next writer hi =>
      cases hstep
      exact tryLock_sysWrite (by rw [hi]; rfl) rfl
    · next hi =>
      cases hstep
      have hempty : (s.tryLock order).phases i = .emitting [] := by
        show phaseLock order (s.contexts i).phase = .emitting []
        rw [hi]
        rfl
      unfold TryLock.Steps TryLock.step
      simp only [hempty, finish, tryLock_setContext]
      rfl

/-! The calls of a thread. -/

end

/-- The calls that found the flag clear, in the order of their exchanges. -/
def won (s : FileSystem ι p) : List (Exchange ι p) := s.exchanges.filter fun e => !e.found

section
variable [DecidableEq ι] {order : ByteOrder} {fd : Int}

/-- The exchanges of one thread. -/
def exchangesOf (s : FileSystem ι p) (i : ι) : List (Exchange ι p) := s.exchanges.filter fun e => e.context = i

/-- The calls whose exchange is still to come. -/
def pending (c : FileContext p) : List (List (Argument p)) :=
  match c.phase with
  | .idle | .stamped _ => c.calls
  | _ => c.calls.tail

/-- Every call of a thread, in its order, has made its one exchange or has it
still to make. -/
def Ordered (program : ι → List (List (Argument p))) (s : FileSystem ι p) : Prop :=
  ∀ i, (s.exchangesOf i).map Exchange.arguments ++ pending (s.contexts i) = program i

variable {program : ι → List (List (Argument p))}

theorem Ordered.setContext {s : FileSystem ι p} (h : Ordered program s) {i : ι} {c : FileContext p}
    (hpending : pending c = pending (s.contexts i)) : Ordered program (s.setContext i c) := by
  intro j
  rw [← h j]
  by_cases hji : j = i
  · subst hji
    simp only [FileSystem.setContext, update_self, hpending]
    rfl
  · simp only [FileSystem.setContext, update_of_ne hji]
    rfl

theorem Ordered.exchanged {s : FileSystem ι p} (h : Ordered program s) {i : ι} {arguments : List (Argument p)}
    {rest : List (List (Argument p))} {timestamp : BitVec 64}
    (hi : s.contexts i = ⟨arguments :: rest, .stamped timestamp⟩) :
    Ordered program (s.exchanged fd i arguments timestamp) := by
  intro j
  rw [← h j]
  have hexchanges : (s.exchanged fd i arguments timestamp).exchangesOf j =
      s.exchangesOf j ++ if i = j then [⟨i, arguments, timestamp, s.taken⟩] else [] := by
    simp only [exchangesOf, FileSystem.exchanged, goto, FileSystem.setContext, List.filter_append]
    by_cases hij : i = j <;> simp [hij]
  rw [hexchanges]
  by_cases hij : i = j
  · subst hij
    have hcontext : (s.exchanged fd i arguments timestamp).contexts i =
        ⟨(s.contexts i).calls, .writing (getWriter fd s.taken) (vlogWrites timestamp arguments)⟩ := update_self ..
    rw [hcontext, hi, if_pos rfl]
    simp [pending]
  · have hcontext : (s.exchanged fd i arguments timestamp).contexts j = s.contexts j := update_of_ne (Ne.symm hij) ..
    rw [hcontext, if_neg hij, List.append_nil]

theorem Ordered.step {s t : FileSystem ι p} {a : ι × Action} (h : Ordered program s) (hstep : Steps order fd s a t) :
    Ordered program t := by
  obtain ⟨i, a⟩ := a
  cases a with
  | readTimestamp timestamp =>
    simp only [Steps, FileSystem.step] at hstep
    split at hstep
    · next hi =>
      cases hstep
      apply h.setContext
      rw [hi]
      rfl
    · cases hstep
  | exchange =>
    simp only [Steps, FileSystem.step] at hstep
    split at hstep
    · next hi =>
      cases hstep
      exact h.exchanged hi
    · cases hstep
  | proceed =>
    simp only [Steps, FileSystem.step, proceed] at hstep
    have within {u : FileSystem ι p} (hu : Ordered program u) {phase : FilePhase}
        (hphase : pending ⟨(u.contexts i).calls, phase⟩ = pending (u.contexts i)) : Ordered program (u.goto i phase) :=
      hu.setContext hphase
    split at hstep
    · cases hstep
    · cases hstep
    · next writer left hi =>
      split at hstep
      · cases hstep
        apply within (u := s.sysWrite _ _) h
        show (s.contexts i).calls.tail = pending (s.contexts i)
        rw [pending, hi]
      · cases hstep
        apply h.setContext
        rw [pending, pending, hi]
    · next writer hi =>
      cases hstep
      apply within (u := s.sysWrite _ _) h
      show (s.contexts i).calls.tail = pending (s.contexts i)
      rw [pending, hi]
    · next hi =>
      cases hstep
      apply Ordered.setContext (s := { s with taken := false }) h
      show (s.contexts i).calls.tail = pending (s.contexts i)
      rw [pending, hi]

theorem ordered_initial : Ordered program (initial program) := fun _ => rfl

theorem Ordered.mem_program {s : FileSystem ι p} (h : Ordered program s) {e : Exchange ι p} (he : e ∈ s.exchanges) :
    e.arguments ∈ program e.context := by
  rw [← h e.context]
  apply List.mem_append_left
  apply List.mem_map_of_mem
  exact List.mem_filter.mpr ⟨he, by simp⟩

/-! What the file has. -/

/-- The content of the file that the logger opened. -/
def content (fd : Int) (previous : Option Bytes) (s : FileSystem ι p) : Bytes :=
  (s.written.foldl (OpenFile.apply fd) (.opened previous)).content

omit [DecidableEq ι] in
theorem won_tryLock (s : FileSystem ι p) : (s.tryLock order).won = s.won.map Exchange.attempt := by
  show (s.exchanges.map Exchange.attempt).filter _ = (s.exchanges.filter _).map _
  rw [List.filter_map]
  rfl

theorem exclusive_always {tr : Runs.Trace (ι × Action) (FileSystem ι p)}
    (hrun : Runs.IsRun (Steps order fd) (initial program) tr) :
    Runs.Always (fun s => TryLock.Exclusive (Message.fileCalls order fd) (s.tryLock order)) (initial program) tr :=
  refines.always (fun tr hrun => TryLock.exclusive_always tr hrun) hrun

omit [DecidableEq ι] in
/-- **What was written**: whole records of the calls that won, and the beginning of
    the record of at most one more. -/
theorem written_eq {s : FileSystem ι p} (h : TryLock.Exclusive (Message.fileCalls order fd) (s.tryLock order)) :
    ∃ delivered pending begun, s.won = delivered ++ pending ∧ pending.length ≤ 1 ∧ (s.taken = false → pending = []) ∧
      s.written = (delivered.flatMap fun e => e.message.fileCalls order fd) ++ begun ∧
      (begun = [] ∨ ∃ e ∈ pending, begun = [⟨fd, order.uint32Bytes e.message.bytes.length⟩]) := by
  obtain ⟨complete, last, sent, hwon, hlast, hholds, hnil, hwritten⟩ := h.output
  rw [won_tryLock] at hwon
  obtain ⟨delivered, pending, hsplit, rfl, rfl⟩ := List.map_eq_append_iff.mp hwon
  have hdelivered : s.written = (delivered.flatMap fun e => e.message.fileCalls order fd) ++ sent := by
    rw [List.flatMap_map] at hwritten
    exact hwritten
  rw [List.length_map] at hlast
  have hfree (hfree : s.taken = false) : pending = [] := by
    rw [List.eq_nil_iff_forall_not_mem]
    intro e he
    have hlock := (h.free hfree).1 e.attempt.context
    rw [(hholds _ (List.mem_map_of_mem he)).1] at hlock
    cases hlock
  cases hpending : pending with
  | nil =>
    refine ⟨delivered, [], [], by rw [hsplit, hpending], Nat.zero_le 1, fun _ => rfl, ?_, .inl rfl⟩
    rw [hdelivered, hnil (by rw [hpending]; rfl)]
  | cons e more =>
    have hmore : more = [] := by
      rw [hpending, List.length_cons] at hlast
      exact List.length_eq_zero_iff.mp (by omega)
    subst hmore
    obtain ⟨-, hsent⟩ := hholds e.attempt (by rw [hpending]; exact List.mem_singleton.mpr rfl)
    have hcalls : e.message.fileCalls order fd =
        [⟨fd, order.uint32Bytes e.message.bytes.length⟩, ⟨fd, e.message.bytes⟩] := rfl
    have hbegins : sent <+: [⟨fd, order.uint32Bytes e.message.bytes.length⟩, ⟨fd, e.message.bytes⟩] := hsent
    -- nothing, the size, or the whole record
    rw [List.prefix_cons_iff] at hbegins
    rcases hbegins with rfl | ⟨more, rfl, hbegins⟩
    · exact ⟨delivered, [e], [], by rw [hsplit, hpending], Nat.le_refl 1, fun hf => hpending ▸ hfree hf, hdelivered,
        .inl rfl⟩
    · rw [List.prefix_cons_iff] at hbegins
      rcases hbegins with rfl | ⟨none, rfl, hbegins⟩
      · exact ⟨delivered, [e], _, by rw [hsplit, hpending], Nat.le_refl 1, fun hf => hpending ▸ hfree hf, hdelivered,
          .inr ⟨e, List.mem_singleton.mpr rfl, rfl⟩⟩
      · rw [List.prefix_nil.mp hbegins] at hdelivered
        refine ⟨delivered ++ [e], [], [], by rw [hsplit, hpending, List.append_nil], Nat.zero_le 1, fun _ => rfl, ?_,
          .inl rfl⟩
        rw [hdelivered, List.flatMap_append, List.flatMap_singleton, hcalls, List.append_nil]

omit [DecidableEq ι] in
theorem fileCalls_fd (delivered : List (Exchange ι p)) {begun : List SysWrite}
    (hbegun : begun = [] ∨ ∃ e : Exchange ι p, begun = [⟨fd, order.uint32Bytes e.message.bytes.length⟩]) :
    ∀ call ∈ (delivered.flatMap fun e => e.message.fileCalls order fd) ++ begun, call.fd = fd := by
  intro call hcall
  rcases List.mem_append.mp hcall with hcall | hcall
  · obtain ⟨e, -, hcall⟩ := List.mem_flatMap.mp hcall
    simp only [Message.fileCalls, FileWriter.recordCalls, List.mem_cons, List.not_mem_nil, or_false] at hcall
    rcases hcall with rfl | rfl <;> rfl
  · rcases hbegun with rfl | ⟨e, rfl⟩
    · cases hcall
    · rw [List.mem_singleton.mp hcall]

omit [DecidableEq ι] in
theorem fileCalls_record (message : Message p) (h : message.bytes.length < 2 ^ 32) :
    (message.fileCalls .little fd).flatMap SysWrite.data = Records.record 4 message.bytes := by
  have hmod : message.bytes.length % 2 ^ 32 = message.bytes.length := Nat.mod_eq_of_lt h
  simp only [Message.fileCalls, FileWriter.recordCalls, List.flatMap_cons, List.flatMap_nil, List.append_nil,
    ByteOrder.uint32Bytes, hmod, Records.record]

theorem bytes_ne_nil (message : Message p) : message.bytes ≠ [] := by
  intro hnil
  have hgroup := (writeLeb128Unsigned_spec (w := 64) (by decide) message.timestamp).1
  apply hgroup.ne_nil
  rw [Message.bytes, vlogWrites_flatten] at hnil
  exact (List.append_eq_nil_iff.mp hnil).1

omit [DecidableEq ι] in
/-- **The file splits** into the records of the calls that won, and a torn size
    at most. -/
theorem content_splits {s : FileSystem ι p} (h : TryLock.Exclusive (Message.fileCalls .little fd) (s.tryLock .little))
    (hsizes : ∀ e ∈ s.exchanges, e.message.bytes.length < 2 ^ 32) {previous : Option Bytes}
    (hfresh : previous.getD [] = []) :
    ∃ delivered pending torn, s.won = delivered ++ pending ∧ pending.length ≤ 1 ∧
      (s.taken = false → pending = [] ∧ torn = []) ∧
      Records.Splits 4 (s.content fd previous) (delivered.map fun e => e.message.bytes) torn := by
  obtain ⟨delivered, pending, begun, hwon, hlen, hfree, hwritten, hbegun⟩ := written_eq h
  have hsize {e : Exchange ι p} (he : e ∈ s.won) : e.message.bytes.length < 2 ^ 32 := by
    apply hsizes
    exact List.mem_of_mem_filter he
  have hfds : ∀ call ∈ s.written, call.fd = fd := by
    rw [hwritten]
    apply fileCalls_fd
    exact hbegun.imp_right fun ⟨e, _, he⟩ => ⟨e, he⟩
  have hcontent : s.content fd previous = s.written.flatMap SysWrite.data := by
    rw [content, OpenFile.applyAll_content _ _ hfds]
    simp [OpenFile.opened, hfresh]
  have hrecords : s.content fd previous =
      (delivered.map fun e => e.message.bytes).flatMap (Records.record 4) ++ begun.flatMap SysWrite.data := by
    rw [hcontent, hwritten, List.flatMap_append, List.flatMap_map, List.flatMap_assoc]
    congr 1
    apply List.flatMap_congr
    intro e he
    exact fileCalls_record e.message (hsize (hwon ▸ List.mem_append_left pending he))
  refine ⟨delivered, pending, begun.flatMap SysWrite.data, hwon, hlen, fun hf => ⟨hfree hf, ?_⟩, hrecords, ?_, ?_⟩
  · rcases hbegun with rfl | ⟨e, he, -⟩
    · rfl
    · rw [hfree hf] at he
      cases he
  · intro message hmessage
    obtain ⟨e, he, rfl⟩ := List.mem_map.mp hmessage
    exact hsize (hwon ▸ List.mem_append_left pending he)
  · rcases hbegun with rfl | ⟨e, he, rfl⟩
    · rfl
    · -- four bytes that promise more
      have hlt := hsize (hwon ▸ List.mem_append_right delivered he)
      have hpos := List.length_pos_of_ne_nil (bytes_ne_nil e.message)
      have hmod : e.message.bytes.length % 2 ^ 32 = e.message.bytes.length := Nat.mod_eq_of_lt hlt
      rw [List.flatMap_singleton, ByteOrder.uint32Bytes, hmod, Records.readRecord]
      rw [List.take_of_length_le (by simp), Records.ofLeBytes_leBytes hlt]
      apply if_pos
      apply Or.inr
      rw [List.drop_of_length_le (by simp)]
      exact hpos

end

end FileSystem

/-- **A log file is never torn further than its last record.** Threads log on one
    `FileLogger` that opened an empty file, and the process stops in any state of
    any run. The record loop then hands over the messages of the calls that found
    the flag clear, each once and in the order of their exchanges, all but the last
    of them at least and the last too where no call is in progress; and every call
    of a thread has its one place in that history, in the thread's order. -/
theorem file_delivers {ι : Type} [DecidableEq ι] {p : Platform} (fd : Int) (previous : Option Bytes)
    (hfresh : previous.getD [] = []) (decode : Bytes → Except Host.Error Host.Log)
    (program : ι → List (List (Argument p)))
    (hsizes : ∀ i, ∀ arguments ∈ program i, ∀ timestamp, (vlogWrites timestamp arguments).flatten.length < 2 ^ 32)
    (tr : Runs.Trace (ι × Action) (FileSystem ι p))
    (hrun : Runs.IsRun (FileSystem.Steps .little fd) (FileSystem.initial program) tr) :
    Runs.Always (fun s => FileSystem.Ordered program s ∧ ∃ delivered pending, s.won = delivered ++ pending ∧
      pending.length ≤ 1 ∧ (s.taken = false → pending = []) ∧
      (Host.recordLoop (fun message => (decode message).mapError .err) (s.content fd previous)).1 =
        delivered.map (fun e => (e.message.bytes, some (Host.messagePrint decode e.message.bytes))) ∧
      (s.taken = false → delivered ≠ [] →
        (Host.recordLoop (fun message => (decode message).mapError .err) (s.content fd previous)).2 = some []))
      (FileSystem.initial program) tr := by
  have hordered : Runs.Always (FileSystem.Ordered program) (FileSystem.initial program) tr :=
    Runs.always_of_step (fun _ _ _ h hstep => h.step hstep) FileSystem.ordered_initial hrun
  have hexclusive := FileSystem.exclusive_always hrun
  refine (hordered.and hexclusive).imp fun s ⟨hord, hexcl⟩ => ⟨hord, ?_⟩
  obtain ⟨delivered, pending, torn, hwon, hlen, hfree, hsplits⟩ :=
    FileSystem.content_splits hexcl (fun e he => hsizes e.context e.arguments (hord.mem_program he) e.timestamp) hfresh
  have hloop := @Host.recordLoop_split decode _ _ _ hsplits
  refine ⟨delivered, pending, hwon, hlen, fun hf => (hfree hf).1, ?_, fun hf hne => ?_⟩
  · rw [hloop, List.map_map]
    rfl
  · rw [hloop]
    apply if_pos
    exact ⟨by simpa using hne, (hfree hf).2⟩

theorem file_delivers_two : ∃ tr, Runs.follow (FileSystem.step .little 3)
      (FileSystem.initial (p := ⟨true, true, true⟩) fun _ : Bool => [[]])
      [(true, .readTimestamp 5), (false, .readTimestamp 6), (true, .exchange), (true, .proceed), (false, .exchange),
        (true, .proceed), (false, .proceed), (true, .proceed)] = some tr ∧
    Runs.Always (fun s => FileSystem.Ordered (fun _ => [[]]) s ∧ ∃ delivered pending, s.won = delivered ++ pending ∧
      pending.length ≤ 1 ∧ (s.taken = false → pending = []) ∧
      (Host.recordLoop (fun _ => .error (.err .invalidLogMessage)) (s.content 3 none)).1 =
        delivered.map (fun e => (e.message.bytes,
          some (Host.messagePrint (fun _ => .error .invalidLogMessage) e.message.bytes))) ∧
      (s.taken = false → delivered ≠ [] →
        (Host.recordLoop (fun _ => .error (.err .invalidLogMessage)) (s.content 3 none)).2 = some []))
      (FileSystem.initial fun _ => [[]]) tr := by
  refine ⟨_, rfl, ?_⟩
  refine file_delivers 3 none rfl (fun _ => .error .invalidLogMessage) (fun _ => [[]]) ?_ _ (Runs.isRun_follow
    [(true, .readTimestamp 5), (false, .readTimestamp 6), (true, .exchange), (true, .proceed), (false, .exchange),
      (true, .proceed), (false, .proceed), (true, .proceed)] rfl)
  intro _ arguments harguments timestamp
  rw [List.mem_singleton.mp harguments, vlogWrites_flatten, argumentBytes_nil, List.append_nil]
  calc _ ≤ maxBufSize 64 := (writeLeb128Unsigned_spec (w := 64) (by decide) timestamp).2.2
    _ < 2 ^ 32 := by decide

end Postform
