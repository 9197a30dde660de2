import Postform.FormatValidator

/- The validator's language. `formatValidator_iff` says that an accepted format is
   a text of the grammar; here the language is put the way the header reads: the
   letter's type predicate and the size's `sizeof` predicate each on its own, the
   arguments by number and place. A text of the grammar can be taken apart in one
   way only (`text_append_inj`), so what does not belong to it is rejected
   wherever it stands. -/
namespace Postform

/-- The predicate of the letter: on the type alone. -/
def Conv.typePredicate (p : Platform) : Conv → ArgType → Bool
  | .s, T => T.convertsToCharPtr
  | .p, T => T.isPointer
  | .k, T => T.isInternedString
  | .c, T => T.isChar
  | .int _ letter, T => letter.accepts p T

/-- The predicate of the size: on `sizeof(T)` alone. The letters without a size
have the default handler, which takes every size. -/
def Conv.sizePredicate (p : Platform) : Conv → ArgType → Bool
  | .int size _, T => size.accepts p (T.size p)
  | _, _ => true

theorem Conv.accepts_eq (p : Platform) (cv : Conv) (T : ArgType) :
    cv.accepts p T = (cv.typePredicate p T && cv.sizePredicate p T) := by
  cases cv with
  | int size letter => rfl
  | _ => exact (Bool.and_true _).symm

/-! A text is taken apart in one way. -/

theorem Piece.text_append_inj : ∀ {q q' : Piece} {rest rest' : List Char}, q.text ++ rest = q'.text ++ rest' →
    q = q' ∧ rest = rest'
  | .lit c hc, .lit c' hc', rest, rest', h => by
    obtain ⟨rfl, hrest⟩ := List.cons.inj h
    exact ⟨rfl, hrest⟩
  | .lit c hc, .percent, _, _, h => absurd (List.cons.inj h).1 hc
  | .lit c hc, .conv _, _, _, h => absurd (List.cons.inj h).1 hc
  | .percent, .lit c hc, _, _, h => absurd (List.cons.inj h).1.symm hc
  | .conv _, .lit c hc, _, _, h => absurd (List.cons.inj h).1.symm hc
  | .percent, .percent, _, _, h => ⟨rfl, List.append_cancel_left h⟩
  | .percent, .conv cv, _, rest', h => absurd (List.cons.inj h).2.symm (Conv.text_ne_percent cv rest' _)
  | .conv cv, .percent, rest, _, h => absurd (List.cons.inj h).2 (Conv.text_ne_percent cv rest _)
  | .conv cv, .conv cv', rest, rest', h => by
    have htext : cv.text ++ rest = cv'.text ++ rest' := (List.cons.inj h).2
    have hcv := Conv.text_inj htext
    subst hcv
    exact ⟨rfl, List.append_cancel_left htext⟩

theorem text_append_inj {ps qs : List Piece} {rest : List Char} (h : text qs = text ps ++ rest) :
    ∃ rs, qs = ps ++ rs ∧ rest = text rs := by
  induction ps generalizing qs with
  | nil => exact ⟨qs, rfl, h.symm⟩
  | cons q ps ih =>
    cases qs with
    | nil => cases q <;> cases h
    | cons q' qs =>
      rw [text_cons, text_cons, List.append_assoc] at h
      obtain ⟨rfl, htext⟩ := Piece.text_append_inj h
      obtain ⟨rs, rfl, hrest⟩ := ih htext
      exact ⟨rs, rfl, hrest⟩

theorem not_text_of_percent {rest : List Char} (hpercent : ∀ tail, rest ≠ '%' :: tail)
    (hconv : ∀ (cv : Conv) tail, rest ≠ cv.text ++ tail) (rs : List Piece) : '%' :: rest ≠ text rs := by
  intro h
  cases rs with
  | nil => cases h
  | cons q rs =>
    cases q with
    | lit c hc => exact hc (List.cons.inj h).1.symm
    | percent => exact hpercent (text rs) (List.cons.inj h).2
    | conv cv => exact hconv cv (text rs) (List.cons.inj h).2

/-! What is accepted. -/

/-- The conversions take the types, one by one. -/
def TakeTypes (p : Platform) (cvs : List Conv) (types : List ArgType) : Prop :=
  cvs.length = types.length ∧ ∀ (i : Nat) (cv : Conv) (T : ArgType), cvs[i]? = some cv → types[i]? = some T →
    cv.typePredicate p T = true ∧ cv.sizePredicate p T = true

theorem takeTypes_iff {p : Platform} {cvs : List Conv} {types : List ArgType} :
    TakeTypes p cvs types ↔ List.Forall₂ (fun cv T => cv.accepts p T = true) cvs types := by
  rw [TakeTypes, List.forall₂_iff_get]
  constructor
  · intro h
    refine ⟨h.1, fun i hi hi' => ?_⟩
    rw [Conv.accepts_eq, Bool.and_eq_true]
    exact h.2 i _ _ (List.getElem?_eq_getElem hi) (List.getElem?_eq_getElem hi')
  · intro h
    refine ⟨h.1, fun i cv T hcv hT => ?_⟩
    obtain ⟨hi, rfl⟩ := List.getElem?_eq_some_iff.mp hcv
    obtain ⟨hi', rfl⟩ := List.getElem?_eq_some_iff.mp hT
    have hacc := h.2 i hi hi'
    rwa [Conv.accepts_eq, Bool.and_eq_true] at hacc

/-- **The validator accepts its grammar** and nothing else: a format in pieces
    whose conversions take the argument types. A `%` that starts no piece is
    rejected, and so is a wrong number of arguments, behind whatever pieces and
    for whatever types. -/
theorem validator_language (p : Platform) (fmt : List Char) (types : List ArgType) :
    (formatValidator p fmt types = true ↔ ∃ ps, fmt = text ps ∧ TakeTypes p (convs ps) types) ∧
    (∀ ps rest, fmt = text ps ++ '%' :: rest → (∀ tail, rest ≠ '%' :: tail) →
      (∀ (cv : Conv) tail, rest ≠ cv.text ++ tail) → formatValidator p fmt types = false) ∧
    (∀ ps, fmt = text ps → (convs ps).length ≠ types.length → formatValidator p fmt types = false) := by
  simp only [takeTypes_iff]
  refine ⟨formatValidator_iff p types fmt, fun ps rest hfmt hpercent hconv => ?_, fun ps hfmt hlen => ?_⟩
  · rw [← Bool.not_eq_true]
    intro haccepts
    obtain ⟨qs, hqs, -, -⟩ := accepted_pieces haccepts
    obtain ⟨rs, -, hrest⟩ := text_append_inj (hqs.symm.trans hfmt)
    exact not_text_of_percent hpercent hconv rs hrest
  · rw [← Bool.not_eq_true]
    intro haccepts
    obtain ⟨qs, -, hconvs, hacc⟩ := accepted_pieces haccepts
    -- the conversions are those of the format, however it was taken apart
    rw [← hconvs, hfmt, conversions_text] at hacc
    exact hlen hacc.length_eq

end Postform
