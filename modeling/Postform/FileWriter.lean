import Postform.Lib.Records
import Postform.WriterLock

/- `FileWriter`: a log call's writer on a host. It buffers the message and
   `commit` makes two `::write` calls on the logger's descriptor, the size of the
   buffer as the bytes of a `uint32_t` in memory and the buffer.

   The writer is its descriptor, its logger, which says whether it is valid, and
   the buffer. A `FileWorld` is any number of loggers and of variables that hold
   writers, under the operations of `WriterOp`, with every `::write` call made. -/
namespace Postform

open Function

/-- How the machine lays out a number in memory. -/
inductive ByteOrder where
  | little | big
  deriving DecidableEq, Repr

/-- The four bytes of a `uint32_t`, which narrows what it is set to. -/
def ByteOrder.uint32Bytes (order : ByteOrder) (n : Nat) : Bytes :=
  match order with
  | .little => Records.leBytes 4 (n % 2 ^ 32)
  | .big => (Records.leBytes 4 (n % 2 ^ 32)).reverse

/-- A call of `::write`. -/
structure SysWrite where
  fd : Int
  data : Bytes
  deriving DecidableEq, Repr

structure FileWriter (L : Type) where
  fd : Int
  logger : Option L
  data : Bytes
  deriving DecidableEq, Repr

namespace FileWriter

variable {L : Type}

/-- `FileWriter() = default`. -/
def invalid : FileWriter L := ⟨-1, none, []⟩

/-- The constructor the logger calls. -/
def acquired (logger : L) (fd : Int) : FileWriter L := ⟨fd, some logger, []⟩

def write (w : FileWriter L) (data : Bytes) : FileWriter L :=
  if w.logger.isSome then { w with data := w.data ++ data } else w

/-- The calls of `::write` for a message. -/
def recordCalls (order : ByteOrder) (fd : Int) (message : Bytes) : List SysWrite :=
  [⟨fd, order.uint32Bytes message.length⟩, ⟨fd, message⟩]

/-- `commit`: the writer, the calls of `::write`, and the logger that is
released. The buffer is left as it is. -/
def commit (order : ByteOrder) (w : FileWriter L) : FileWriter L × List SysWrite × Option L :=
  if w.logger.isSome then ({ w with fd := -1, logger := none }, recordCalls order w.fd w.data, w.logger)
  else (w, [], none)

/-- The move constructor: the new writer, and what `other` is left as. The new
writer's buffer is empty. -/
def moveConstruct (other : FileWriter L) : FileWriter L × FileWriter L :=
  (⟨other.fd, other.logger, []⟩, { other with fd := -1, logger := none })

/-- `operator=` from another object, after the `commit` it starts with: this
writer, which keeps its own buffer, and what `other` is left as. -/
def moveAssign (this other : FileWriter L) : FileWriter L × FileWriter L :=
  ({ this with fd := other.fd, logger := other.logger }, { other with fd := -1, logger := none })

/-- A sequence of `write` calls. -/
def writeAll (w : FileWriter L) (writes : List Bytes) : FileWriter L := writes.foldl write w

/-- The bytes a message adds to its file: the `write` calls on a writer just
acquired, then `commit`. -/
def recordBytes (order : ByteOrder) (logger : L) (fd : Int) (writes : List Bytes) : Bytes :=
  (((acquired logger fd).writeAll writes).commit order).2.1.flatMap SysWrite.data

theorem writeAll_eq {w : FileWriter L} (hw : w.logger.isSome) (writes : List Bytes) :
    w.writeAll writes = { w with data := w.data ++ writes.flatten } := by
  induction writes generalizing w with
  | nil => rw [writeAll, List.foldl_nil, List.flatten_nil, List.append_nil]
  | cons data rest ih =>
    have hwrite : w.write data = { w with data := w.data ++ data } := by rw [write, if_pos hw]
    have ih := ih (w := { w with data := w.data ++ data }) hw
    rw [writeAll, List.foldl_cons, ← writeAll, hwrite, ih, List.flatten_cons, List.append_assoc]

theorem recordBytes_eq (order : ByteOrder) (logger : L) (fd : Int) (writes : List Bytes) :
    recordBytes order logger fd writes = order.uint32Bytes writes.flatten.length ++ writes.flatten := by
  rw [recordBytes, writeAll_eq rfl]
  simp [commit, acquired, recordCalls]

theorem recordBytes_little (logger : L) (fd : Int) {writes : List Bytes} (h : writes.flatten.length < 2 ^ 32) :
    recordBytes .little logger fd writes = Records.record 4 writes.flatten := by
  rw [recordBytes_eq, ByteOrder.uint32Bytes, Nat.mod_eq_of_lt h, Records.record]

end FileWriter

/-- The loggers' flags, the writers alive, and the calls of `::write` so far. -/
structure FileWorld (L W : Type) where
  taken : L → Bool
  writers : W → Option (FileWriter L)
  calls : List SysWrite

namespace FileWorld

variable {L W : Type}

def initial : FileWorld L W := ⟨fun _ => false, fun _ => none, []⟩

variable [DecidableEq L] [DecidableEq W] (order : ByteOrder) (fd : L → Int)

/-- `commit` of the writer `x` in the variable `w`, which then holds `after`. -/
def commitTo (s : FileWorld L W) (w : W) (x : FileWriter L) (after : Option (FileWriter L)) : FileWorld L W :=
  { taken := match (x.commit order).2.2 with
      | some l => update s.taken l false
      | none => s.taken
    writers := update s.writers w after
    calls := s.calls ++ (x.commit order).2.1 }

/-- An operation; `none` where the objects it needs are not alive, or the one
it creates is. -/
def step (s : FileWorld L W) : WriterOp L W → Option (FileWorld L W)
  | .getWriter l dst =>
    if (s.writers dst).isSome then none
    else if s.taken l then some { s with taken := update s.taken l true, writers := update s.writers dst (some .invalid) }
    else some { s with
      taken := update s.taken l true
      writers := update s.writers dst (some (.acquired l (fd l))) }
  | .default dst =>
    if (s.writers dst).isSome then none
    else some { s with writers := update s.writers dst (some .invalid) }
  | .write w data => (s.writers w).map fun x => { s with writers := update s.writers w (some (x.write data)) }
  | .commit w => (s.writers w).map fun x => s.commitTo order w x (some (x.commit order).1)
  | .moveConstruct src dst =>
    if (s.writers dst).isSome then none
    else (s.writers src).map fun x =>
      { s with writers := update (update s.writers dst (some x.moveConstruct.1)) src (some x.moveConstruct.2) }
  | .moveAssign src dst =>
    (s.writers dst).bind fun y => (s.writers src).map fun x =>
      if src = dst then s
      else
        let moved := (y.commit order).1.moveAssign x
        let committed := s.commitTo order dst y (some moved.1)
        { committed with writers := update committed.writers src (some moved.2) }
  | .destroy w => (s.writers w).map fun x => s.commitTo order w x none

end FileWorld

end Postform
