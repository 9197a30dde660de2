import Mathlib.Data.List.Basic
import Mathlib.Data.List.Infix

/- Reverse COBS (rCOBS), the framing that removes zero bytes from a message.
   A frame is a sequence of blocks, each ended by its marker: a marker `m` in
   1..=254 stands for the `m - 1` literal bytes before it followed by one zero,
   the marker 255 for 254 literal bytes and no zero. A frame is decoded
   backwards from its last byte; the message is the concatenation of the
   blocks without its final zero, the one the closing marker stands for.

   `Blocks frame msg` says that the blocks of `frame` concatenate to `msg`.
   An encoder is right when what it has sent is whole blocks of what it was
   given up to the literals still open (`Blocks.close`); its last marker then
   decides whether there is a final zero to remove (`decode_of_blocks`). -/
namespace Wire.Rcobs

/-- What a marker stands for after its literals. -/
def closing (m : UInt8) : List UInt8 := if m = 255 then [] else [0]

/-- Backwards over the reversed frame: `due` literals are still to be taken
    before the next byte is a marker, `msg` is what has been decoded. -/
def backwards : Nat → List UInt8 → List UInt8 → Option (List UInt8)
  | 0, [], msg => some msg
  | _ + 1, [], _ => none
  | 0, m :: rest, msg => if m = 0 then none else backwards (m.toNat - 1) rest (closing m ++ msg)
  | due + 1, b :: rest, msg => backwards due rest (b :: msg)

/-- The decoder: the blocks of the frame, less the final zero, which is
    required. -/
def decode (frame : List UInt8) : Option (List UInt8) :=
  match backwards 0 frame.reverse [] with
  | none => none
  | some msg => if msg.getLast? = some 0 then some msg.dropLast else none

/-- The blocks of `frame` concatenate to `msg`. -/
def Blocks (frame msg : List UInt8) : Prop :=
  ∀ after, backwards 0 frame.reverse after = some (msg ++ after)

theorem Blocks.nil : Blocks [] [] := fun _ => rfl

theorem backwards_literals (lits rest msg : List UInt8) :
    backwards lits.length (lits ++ rest) msg = backwards 0 rest (lits.reverse ++ msg) := by
  induction lits generalizing msg with
  | nil => rfl
  | cons b lits ih =>
    rw [List.length_cons, List.cons_append, backwards, ih]
    simp

/-- A marker closes the block of the literals sent since the last one. -/
theorem Blocks.close {frame msg : List UInt8} (h : Blocks frame msg) (lits : List UInt8) {m : UInt8}
    (hm : m.toNat = lits.length + 1) :
    Blocks (frame ++ lits ++ [m]) (msg ++ lits ++ closing m) := by
  intro after
  have h0 : m ≠ 0 := by
    intro heq
    subst heq
    simp at hm
  -- reversed, the marker comes first and its literals follow
  have hl : m.toNat - 1 = lits.reverse.length := by simp [hm]
  rw [List.reverse_append, List.reverse_append, List.reverse_singleton, List.singleton_append,
    backwards, if_neg h0, hl, backwards_literals, List.reverse_reverse, h]
  simp

theorem decode_of_blocks {frame msg : List UInt8} (h : Blocks frame (msg ++ [0])) :
    decode frame = some msg := by
  rw [decode, h []]
  simp

theorem decode_of_blocks_none {frame msg : List UInt8} (h : Blocks frame msg)
    (hz : msg.getLast? ≠ some 0) : decode frame = none := by
  rw [decode, h []]
  simp [hz]

/-! The run of non-zero bytes at the end of a message, which is what the last
    marker counts. -/

def trailingRun (msg : List UInt8) : Nat := (msg.reverse.takeWhile (· != 0)).length

theorem trailingRun_zero (msg : List UInt8) : trailingRun (msg ++ [0]) = 0 := by
  simp [trailingRun]

theorem trailingRun_snoc {b : UInt8} (hb : b ≠ 0) (msg : List UInt8) :
    trailingRun (msg ++ [b]) = trailingRun msg + 1 := by
  simp [trailingRun, hb]

theorem trailingRun_append_le (msg tail : List UInt8) : trailingRun (msg ++ tail) ≤ trailingRun msg + tail.length := by
  simp only [trailingRun, List.reverse_append]
  rw [List.takeWhile_append]
  split
  · simp; omega
  · have := (List.takeWhile_prefix (l := tail.reverse) (· != 0)).length_le
    rw [List.length_reverse] at this
    omega

theorem trailingRun_replicate {b : UInt8} (hb : b ≠ 0) (n : Nat) : trailingRun (List.replicate n b) = n := by
  induction n with
  | zero => rfl
  | succ n ih => rw [List.replicate_succ', trailingRun_snoc hb, ih]

theorem trailingRun_le_length (msg : List UInt8) : trailingRun msg ≤ msg.length := by
  have := (List.takeWhile_prefix (l := msg.reverse) (· != 0)).length_le
  simpa [trailingRun] using this

end Wire.Rcobs
