import Mathlib.Data.List.Basic

/- Streams cut at a delimiter. `pieces delim pending stream` are the maximal
   delimiter-free pieces of a stream whose beginning, `pending`, was received
   before: all but the last are complete, ended by a delimiter, and the last is
   unfinished. A receiver that keeps the unfinished piece and goes on with it
   gets the complete pieces of the whole stream, however the stream is cut
   (`complete_append`), and exchanging what lies between two delimiters
   exchanges one piece (`complete_middle`). -/
namespace Segments

variable {α : Type} [DecidableEq α] (delim : α)

/-- The pieces of the stream, the first behind what is pending. -/
def pieces (pending stream : List α) : List (List α) := (stream.splitOn delim).modifyHead (pending ++ ·)

/-- The pieces that are ended by a delimiter. -/
def complete (pending stream : List α) : List (List α) := (pieces delim pending stream).dropLast

/-- What follows the last delimiter. -/
def unfinished (pending stream : List α) : List α := (pieces delim pending stream).getLastD []

variable {delim} {pending : List α}

/-! One element of the stream. -/

theorem pieces_ne_nil (stream : List α) : pieces delim pending stream ≠ [] := by
  rw [pieces, ne_eq, List.modifyHead_eq_nil_iff]
  exact List.splitOn_ne_nil delim stream

@[simp] theorem pieces_nil : pieces delim pending [] = [pending] := by
  simp [pieces]

@[simp] theorem pieces_delim (stream : List α) :
    pieces delim pending (delim :: stream) = pending :: pieces delim [] stream := by
  have hid : (fun s : List α => [] ++ s) = id := rfl
  rw [pieces, List.splitOn_cons_eq_if_modifyHead, if_pos (beq_self_eq_true delim), pieces, hid, List.modifyHead_id]
  simp

theorem pieces_cons {b : α} (hb : b ≠ delim) (stream : List α) :
    pieces delim pending (b :: stream) = pieces delim (pending ++ [b]) stream := by
  have hcomp : (fun s : List α => pending ++ s) ∘ List.cons b = fun s => (pending ++ [b]) ++ s := by
    funext s
    simp
  rw [pieces, List.splitOn_cons_eq_if_modifyHead, if_neg (by simpa using hb), List.modifyHead_modifyHead, hcomp, pieces]

@[simp] theorem complete_nil : complete delim pending [] = [] := by
  rw [complete, pieces_nil, List.dropLast_singleton]

@[simp] theorem unfinished_nil : unfinished delim pending [] = pending := by
  rw [unfinished, pieces_nil]
  rfl

@[simp] theorem complete_delim (stream : List α) :
    complete delim pending (delim :: stream) = pending :: complete delim [] stream := by
  rw [complete, pieces_delim, List.dropLast_cons_of_ne_nil (pieces_ne_nil stream), complete]

@[simp] theorem unfinished_delim (stream : List α) :
    unfinished delim pending (delim :: stream) = unfinished delim [] stream := by
  rw [unfinished, pieces_delim, unfinished]
  cases h : pieces delim [] stream with
  | nil => exact absurd h (pieces_ne_nil stream)
  | cons piece rest => rfl

theorem complete_cons {b : α} (hb : b ≠ delim) (stream : List α) :
    complete delim pending (b :: stream) = complete delim (pending ++ [b]) stream := by
  rw [complete, pieces_cons hb, complete]

theorem unfinished_cons {b : α} (hb : b ≠ delim) (stream : List α) :
    unfinished delim pending (b :: stream) = unfinished delim (pending ++ [b]) stream := by
  rw [unfinished, pieces_cons hb, unfinished]

/-! One part of the stream after another. -/

theorem unfinished_append (a b : List α) :
    unfinished delim pending (a ++ b) = unfinished delim (unfinished delim pending a) b := by
  induction a generalizing pending with
  | nil => rw [unfinished_nil, List.nil_append]
  | cons c a ih =>
    by_cases hc : c = delim
    · subst hc
      rw [List.cons_append, unfinished_delim, unfinished_delim, ih]
    · rw [List.cons_append, unfinished_cons hc, unfinished_cons hc, ih]

/-- **Cutting a stream** changes nothing for a receiver that keeps the
    unfinished piece. -/
theorem complete_append (a b : List α) : complete delim pending (a ++ b) =
    complete delim pending a ++ complete delim (unfinished delim pending a) b := by
  induction a generalizing pending with
  | nil => rw [complete_nil, unfinished_nil, List.nil_append, List.nil_append]
  | cons c a ih =>
    by_cases hc : c = delim
    · subst hc
      rw [List.cons_append, complete_delim, complete_delim, unfinished_delim, ih, List.cons_append]
    · rw [List.cons_append, complete_cons hc, complete_cons hc, unfinished_cons hc, ih]

theorem complete_free {x : List α} (hx : delim ∉ x) : complete delim pending x = [] := by
  rw [complete, pieces, List.splitOn_eq_singleton hx]
  rfl

theorem complete_pending (other stream : List α) :
    (complete delim pending stream).drop 1 = (complete delim other stream).drop 1 := by
  induction stream generalizing pending other with
  | nil => rw [complete_nil, complete_nil]
  | cons b stream ih =>
    by_cases hb : b = delim
    · subst hb
      rw [complete_delim, complete_delim, List.drop_one, List.tail_cons, List.drop_one, List.tail_cons]
    · rw [complete_cons hb, complete_cons hb, ih]

/-- **Exchanging what lies inside a piece** exchanges that piece: those before
    it and after it do not depend on it. -/
theorem complete_middle (pending : List α) {x : List α} (hx : delim ∉ x) (before after : List α) :
    ∃ piece, piece.length ≤ 1 ∧ complete delim pending (before ++ x ++ after) =
      complete delim pending before ++ piece ++ (complete delim [] after).drop 1 := by
  have hbefore : complete delim pending (before ++ x) = complete delim pending before := by
    rw [complete_append, complete_free hx, List.append_nil]
  refine ⟨(complete delim (unfinished delim pending (before ++ x)) after).take 1, List.length_take_le .., ?_⟩
  rw [complete_append, hbefore, complete_pending (unfinished delim pending (before ++ x)), List.append_assoc,
    List.take_append_drop]

end Segments
