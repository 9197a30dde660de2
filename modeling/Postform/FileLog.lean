import Postform.FileWriter
import Postform.SerialLogger

/- The file a `FileLogger` leaves. `open` creates the file where there is none and
   otherwise keeps what is in it, with the offset at its start; `::write` puts its
   bytes at the offset and moves it behind them. So the records of a run overwrite
   the front of the previous content, and what they do not reach stays behind them
   (`fileAfter_eq`). -/
namespace Postform

/-- A file as its descriptor sees it. -/
structure OpenFile where
  content : Bytes
  offset : Nat
  inside : offset ≤ content.length

namespace OpenFile

/-- `open` with `O_CREAT | O_RDWR`; `previous` is the file, if there is one. -/
def opened (previous : Option Bytes) : OpenFile := ⟨previous.getD [], 0, Nat.zero_le _⟩

/-- A `::write` that succeeds in full. -/
def write (f : OpenFile) (data : Bytes) : OpenFile :=
  { content := f.content.take f.offset ++ data ++ f.content.drop (f.offset + data.length)
    offset := f.offset + data.length
    inside := by
      have := f.inside
      simp only [List.length_append, List.length_take, List.length_drop]
      omega }

/-- A call of `::write`, which may be on another descriptor. -/
def apply (fd : Int) (f : OpenFile) (call : SysWrite) : OpenFile := if call.fd = fd then f.write call.data else f

theorem write_take (f : OpenFile) (data : Bytes) :
    (f.write data).content.take (f.write data).offset = f.content.take f.offset ++ data := by
  have hlen : (f.content.take f.offset ++ data).length = f.offset + data.length := by
    rw [List.length_append, List.length_take, Nat.min_eq_left f.inside]
  simp only [write]
  rw [← hlen, List.take_left]

theorem write_drop (f : OpenFile) (data : Bytes) (n : Nat) :
    (f.write data).content.drop ((f.write data).offset + n) = f.content.drop (f.offset + data.length + n) := by
  have hlen : (f.content.take f.offset ++ data).length = f.offset + data.length := by
    rw [List.length_append, List.length_take, Nat.min_eq_left f.inside]
  simp only [write]
  rw [← List.drop_drop, ← hlen, List.drop_left, List.drop_drop, hlen]

/-- **A run of writes** on the descriptor: what was in front of the offset, the
    bytes written, and what they do not reach. -/
theorem applyAll_content {fd : Int} : ∀ (calls : List SysWrite) (f : OpenFile), (∀ call ∈ calls, call.fd = fd) →
    (calls.foldl (apply fd) f).content = f.content.take f.offset ++ calls.flatMap SysWrite.data ++
      f.content.drop (f.offset + (calls.flatMap SysWrite.data).length)
  | [], f, _ => by simp
  | call :: calls, f, h => by
    have hfd : apply fd f call = f.write call.data := by rw [apply, if_pos (h call List.mem_cons_self)]
    have ih := applyAll_content calls (f.write call.data) fun c hc => h c (List.mem_cons_of_mem _ hc)
    rw [List.foldl_cons, hfd, ih, write_take, write_drop, List.flatMap_cons, List.length_append]
    simp only [List.append_assoc, Nat.add_assoc]

end OpenFile

/-! Log calls on a `FileLogger`. -/

variable {p : Platform}

/-- A log call; `mLevel` is the level the logger then has. -/
structure LogCall (p : Platform) where
  mLevel : LogLevel
  level : LogLevel
  timestamp : BitVec 64
  args : List (Arg p)
  packs : (buildArgs args).isSome

namespace LogCall

/-- What the call does with the logger and the writer of its `vlog`. -/
def ops (call : LogCall p) : List (WriterOp Unit Unit) :=
  match Postform.log call.mLevel call.level call.args with
  | some arguments => vlogOps call.timestamp arguments
  | none => []

/-- The record of the call, if it passes the level filter. -/
def record (order : ByteOrder) (fd : Int) (call : LogCall p) : Bytes :=
  match Postform.log call.mLevel call.level call.args with
  | some arguments => FileWriter.recordBytes order () fd (vlogWrites call.timestamp arguments)
  | none => []

end LogCall

namespace FileWorld

variable (order : ByteOrder) (fd : Int)

/-- Operations one after another, if each can be done. -/
def exec (s : FileWorld Unit Unit) (ops : List (WriterOp Unit Unit)) : Option (FileWorld Unit Unit) :=
  ops.foldlM (FileWorld.step order fun _ => fd) s

/-- No call is running and the writer is free. -/
def free (calls : List SysWrite) : FileWorld Unit Unit := ⟨fun _ => false, fun _ => none, calls⟩

/-- The writer `x` is the call's. -/
def busy (x : FileWriter Unit) (calls : List SysWrite) : FileWorld Unit Unit := ⟨fun _ => true, fun _ => some x, calls⟩

/-- The content of the file after the log calls of a logger that opened it. -/
def fileAfter (previous : Option Bytes) (calls : List (LogCall p)) : Option Bytes :=
  (exec order fd .initial (calls.flatMap LogCall.ops)).map fun s =>
    (s.calls.foldl (OpenFile.apply fd) (.opened previous)).content

variable {order : ByteOrder} {fd : Int}

theorem exec_append {s t : FileWorld Unit Unit} {ops : List (WriterOp Unit Unit)} (h : exec order fd s ops = some t)
    (more : List (WriterOp Unit Unit)) : exec order fd s (ops ++ more) = exec order fd t more :=
  Runs.foldlM_append h more

theorem exec_writes : ∀ (writes : List Bytes) (x : FileWriter Unit) (calls : List SysWrite),
    exec order fd (busy x calls) (writes.map (.write ())) = some (busy (x.writeAll writes) calls)
  | [], _, _ => rfl
  | data :: rest, x, calls => by
    have hstep : exec order fd (busy x calls) [.write () data] = some (busy (x.write data) calls) := rfl
    rw [List.map_cons, ← List.singleton_append, exec_append hstep, exec_writes rest]
    rfl

/-- **A call writes one record** and leaves the writer free. -/
theorem exec_vlog (timestamp : BitVec 64) (arguments : List (Argument p)) (calls : List SysWrite) :
    exec order fd (free calls) (vlogOps timestamp arguments) =
      some (free (calls ++ FileWriter.recordCalls order fd (vlogWrites timestamp arguments).flatten)) := by
  generalize hwrites : vlogWrites timestamp arguments = writes
  have hget : exec order fd (free calls) [.getWriter () ()] = some (busy (.acquired () fd) calls) := rfl
  have hdestroy : exec order fd (busy ⟨fd, some (), writes.flatten⟩ calls) [.destroy ()] =
      some (free (calls ++ FileWriter.recordCalls order fd writes.flatten)) := rfl
  have hall : (FileWriter.acquired () fd).writeAll writes = ⟨fd, some (), writes.flatten⟩ :=
    FileWriter.writeAll_eq rfl writes
  rw [vlogOps, hwrites, ← List.singleton_append, exec_append hget, exec_append (exec_writes writes _ calls), hall,
    hdestroy]

theorem exec_calls : ∀ (logCalls : List (LogCall p)) (calls : List SysWrite), (∀ call ∈ calls, call.fd = fd) →
    ∃ more, exec order fd (free calls) (logCalls.flatMap LogCall.ops) = some (free more) ∧
      (∀ call ∈ more, call.fd = fd) ∧ more.flatMap SysWrite.data =
        calls.flatMap SysWrite.data ++ logCalls.flatMap (LogCall.record order fd)
  | [], calls, h => ⟨calls, rfl, h, by rw [List.flatMap_nil, List.append_nil]⟩
  | logCall :: rest, calls, h => by
    rw [List.flatMap_cons, List.flatMap_cons]
    cases hlog : Postform.log logCall.mLevel logCall.level logCall.args with
    | none =>
      have hops : logCall.ops = [] := by rw [LogCall.ops, hlog]
      have hrecord : logCall.record order fd = [] := by rw [LogCall.record, hlog]
      rw [hops, hrecord]
      exact exec_calls rest calls h
    | some arguments =>
      have hops : logCall.ops = vlogOps logCall.timestamp arguments := by rw [LogCall.ops, hlog]
      have hrecord : logCall.record order fd =
          (FileWriter.recordCalls order fd (vlogWrites logCall.timestamp arguments).flatten).flatMap SysWrite.data := by
        simp [LogCall.record, hlog, FileWriter.recordBytes_eq, FileWriter.recordCalls]
      have hfds : ∀ call ∈ calls ++ FileWriter.recordCalls order fd (vlogWrites logCall.timestamp arguments).flatten,
          call.fd = fd := by
        intro call hcall
        rcases List.mem_append.mp hcall with hold | hnew
        · exact h call hold
        · simp only [FileWriter.recordCalls, List.mem_cons, List.not_mem_nil, or_false] at hnew
          rcases hnew with rfl | rfl <;> rfl
      obtain ⟨more, hexec, hfds, hdata⟩ := exec_calls rest _ hfds
      refine ⟨more, ?_, hfds, ?_⟩
      · rw [hops, exec_append (exec_vlog logCall.timestamp arguments calls), hexec]
      · rw [hdata, hrecord, List.flatMap_append, List.append_assoc]

/-- The records, and the previous content behind them. -/
theorem fileAfter_eq (previous : Option Bytes) (logCalls : List (LogCall p)) :
    fileAfter order fd previous logCalls = some (logCalls.flatMap (LogCall.record order fd) ++
      (previous.getD []).drop (logCalls.flatMap (LogCall.record order fd)).length) := by
  obtain ⟨calls, hexec, hfds, hdata⟩ : ∃ calls, exec order fd (free []) (logCalls.flatMap LogCall.ops) =
      some (free calls) ∧ (∀ call ∈ calls, call.fd = fd) ∧ calls.flatMap SysWrite.data =
        [] ++ logCalls.flatMap (LogCall.record order fd) := exec_calls logCalls [] fun _ h => absurd h List.not_mem_nil
  have hinitial : exec order fd .initial (logCalls.flatMap LogCall.ops) = some (free calls) := hexec
  have hcontent := OpenFile.applyAll_content calls (.opened previous) hfds
  rw [hdata, List.nil_append] at hcontent
  rw [fileAfter, hinitial, Option.map_some, free, hcontent]
  simp [OpenFile.opened]

end FileWorld

/-- **The log file holds its own run only**, exactly where the previous content
    was no longer than the records of the run. -/
theorem file_holds_run_iff (p : Platform) (order : ByteOrder) (fd : Int) (previous : Option Bytes)
    (calls : List (LogCall p)) :
    FileWorld.fileAfter order fd previous calls = some (calls.flatMap (LogCall.record order fd)) ↔
      (previous.getD []).length ≤ (calls.flatMap (LogCall.record order fd)).length := by
  rw [FileWorld.fileAfter_eq, Option.some.injEq, List.append_right_eq_self, List.drop_eq_nil_iff]

/-- A run of one short record over a longer one: the last byte stays. -/
theorem stale_tail_stays : ¬∀ (order : ByteOrder) (fd : Int) (previous : Option Bytes)
    (calls : List (LogCall ⟨true, true, true⟩)),
    FileWorld.fileAfter order fd previous calls = some (calls.flatMap (LogCall.record order fd)) := by
  intro h
  have hshort := h .little 3 (some [2, 0, 0, 0, 1, 9]) [⟨.debug, .info, 0, [], rfl⟩]
  exact absurd hshort (by decide)

end Postform
