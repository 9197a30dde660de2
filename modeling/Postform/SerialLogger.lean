import Postform.WriterLock

/- Log calls one after another. `vlog` takes a writer from the logger, writes
   the message through it and lets it go out of scope; on a logger whose writer
   is free that sends the frame of the message and leaves the writer free. -/
namespace Postform

variable {p : Platform}

/-- What `vlog` does with the logger and its own `writer`; the destructor
commits. -/
def vlogOps (timestamp : BitVec 64) (arguments : List (Argument p)) : List (WriterOp Unit Unit) :=
  .getWriter () () :: ((vlogWrites timestamp arguments).map (.write ()) ++ [.destroy ()])

namespace World

/-- One logger, its transport, and the one variable a `vlog` has. -/
abbrev Serial := World Unit Unit Unit

/-- Operations one after another, if each can be done. -/
def exec (s : Serial) (ops : List (WriterOp Unit Unit)) : Option Serial := ops.foldlM (World.step id) s

/-- No call is running and the writer is free. -/
def free (received : List TransportOp) : Serial := ⟨fun _ => false, fun _ => none, fun _ => received⟩

/-- The writer `x` is the call's. -/
def held (x : SerialWriter Unit Unit) (received : List TransportOp) : Serial :=
  ⟨fun _ => true, fun _ => some x, fun _ => received⟩

theorem exec_cons {s t : Serial} {op : WriterOp Unit Unit} (h : World.step id s op = some t)
    (ops : List (WriterOp Unit Unit)) : exec s (op :: ops) = exec t ops := by
  rw [exec, List.foldlM_cons, h]
  rfl

theorem exec_append {s t : Serial} {ops : List (WriterOp Unit Unit)} (h : exec s ops = some t)
    (more : List (WriterOp Unit Unit)) : exec s (ops ++ more) = exec t more :=
  Runs.foldlM_append h more

/-! One operation of a call. -/

theorem step_getWriter (received : List TransportOp) :
    World.step id (free received) (.getWriter () ()) = some (held (.acquired () ()) received) := rfl

theorem step_write {x : SerialWriter Unit Unit} (hx : x.transport = some ()) (received : List TransportOp) (data : Bytes) :
    World.step id (held x received) (.write () data) =
      some (held (x.write data).1 (received ++ (x.write data).2.map .write)) := by
  simp only [World.step, held, Option.map_some, hx]
  rfl

theorem step_destroy {x : SerialWriter Unit Unit} (hx : x.transport = some ()) (hl : x.commit.2.2 = some ())
    (received : List TransportOp) :
    World.step id (held x received) (.destroy ()) = some (free (received ++ x.commit.2.1)) := by
  simp only [World.step, held, Option.map_some, commitTo, hx, hl]
  rfl

/-! The whole call. -/

theorem exec_writes : ∀ (writes : List Bytes) {x : SerialWriter Unit Unit} (received : List TransportOp),
    x.state = .writable → x.transport = some () → exec (held x received) (writes.map (.write ())) =
      some (held (x.writeAll writes).1 (received ++ (x.writeAll writes).2.map .write))
  | [], x, received, _, _ => by
    simp only [SerialWriter.writeAll, List.map_nil, List.append_nil]
    rfl
  | data :: rest, x, received, hw, hx => by
    have hwrite : (x.write data).1 = { x with marker := (SerialWriter.writeLoop x.marker data).2 } := by
      rw [SerialWriter.write, if_pos hw]
    have ih := exec_writes rest (x := (x.write data).1) (received ++ (x.write data).2.map .write)
      (by rw [hwrite]; exact hw) (by rw [hwrite]; exact hx)
    rw [List.map_cons, exec_cons (step_write hx received data), ih]
    simp only [SerialWriter.writeAll, List.map_append, List.append_assoc]

/-- The calls of the transport that a message gives rise to. -/
def frameOps (message : Bytes) : List TransportOp :=
  (frame message).map .write ++ [.commit]

/-- **A call sends one frame** and leaves the writer free. -/
theorem exec_vlog (timestamp : BitVec 64) (arguments : List (Argument p)) (received : List TransportOp) :
    exec (free received) (vlogOps timestamp arguments) =
      some (free (received ++ frameOps (vlogWrites timestamp arguments).flatten)) := by
  generalize hwrites : vlogWrites timestamp arguments = writes
  have hall := SerialWriter.writeAll_eq (w := SerialWriter.acquired () ()) rfl writes
  rw [vlogOps, hwrites, exec_cons (step_getWriter received),
    exec_append (exec_writes writes received rfl rfl), exec_cons (step_destroy (by rw [hall]; rfl) (by rw [hall]; rfl) _),
    hall]
  simp [exec, SerialWriter.commit, SerialWriter.acquired, frameOps, frame, frameBody]

end World

theorem opBytes_frameOps (message : Bytes) : SerialWriter.opBytes (World.frameOps message) = frame message := by
  simp [SerialWriter.opBytes, World.frameOps, List.filterMap_map]

end Postform
