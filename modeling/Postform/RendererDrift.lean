import Postform.Readers

/- When the loop renders as the reference does. On an aligned format always. On
   another the two part at a stop where the loop drifts: it takes the `%` for
   text where the reference has a conversion. A run over universal arguments then
   shows the difference, at the place of half the `%` the stop has behind each
   other (`drift_rendering_ne`), unless both end at an unknown conversion. Those
   show nothing but which arguments were read before (`readAll_separates`). -/
namespace Postform.Host

open Wire

/-! What universal arguments make of a scan. -/

/-- The text after its end. -/
def Ending.rest : Ending → Str
  | .text rest => rest
  | _ => []

/-- What is printed for the tokens of a scan and the text behind them. -/
def rendering (scanned : List Token × Ending) : Str := universalOut scanned.1 ++ scanned.2.rest

theorem rendering_cons (t : Token) (tokens : List Token) (ending : Ending) :
    rendering (t :: tokens, ending) = t.lead ++ t.kind.universalText ++ rendering (tokens, ending) := by
  simp only [rendering, universalOut, List.flatMap_cons, List.append_assoc]

/-- Scans that take the conversion at the front of a format. -/
structure Scans (f : Str → List Token × Ending) : Prop where
  conv : ∀ {spec tail : Str} {kind : Kind}, findKind (spec ++ tail) = some (spec, kind) →
    f (spec ++ tail) = (⟨[], spec, kind⟩ :: (f tail).1, (f tail).2)
  unknown : ∀ {rest : Str}, findKind ('%' :: rest) = none → f ('%' :: rest) = ([], .unknown '%')

theorem scans_scan : Scans scan where
  conv hfind := scan_conv List.not_mem_nil hfind
  unknown hfind := scan_unknown List.not_mem_nil hfind

theorem scans_tokenize : Scans tokenize where
  conv hfind := tokenize_conv List.not_mem_nil (by simp [Utf8.IsAscii]) hfind
  unknown {rest} hfind := by
    have hlead : '%' ∉ ([] : Str) := List.not_mem_nil
    have hstop := tokenize_lead hlead (by simp [Utf8.IsAscii]) rest
    rw [hfind] at hstop
    exact hstop

/-- What a conversion other than `%%` prints starts with no `%`, and not with
its own first letter. -/
theorem universalText_head {spec : Str} {kind : Kind} (h : (spec, kind) ∈ specKinds) (hspec : spec ≠ ['%', '%']) :
    ∃ u, kind.universalText.head? = some u ∧ u ≠ '%' ∧ spec.tail.head? ≠ some u := by
  have hall : ∀ entry ∈ specKinds, entry.1 = ['%', '%'] ∨ entry.2.universalText.head?.isSome ∧
      entry.2.universalText.head? ≠ some '%' ∧ entry.1.tail.head? ≠ entry.2.universalText.head? := by decide
  obtain ⟨hsome, hpercent, hletter⟩ := (hall (spec, kind) h).resolve_left hspec
  obtain ⟨u, hu⟩ := Option.isSome_iff_exists.mp hsome
  rw [hu] at hpercent hletter
  exact ⟨u, hu, by simpa using hpercent, hletter⟩

/-! Runs of `%`. -/

theorem exists_run (format : Str) : ∃ r tail, format = List.replicate r '%' ++ tail ∧ tail.head? ≠ some '%' := by
  induction format with
  | nil => exact ⟨0, [], rfl, by simp⟩
  | cons c format ih =>
    by_cases hc : c = '%'
    · obtain ⟨r, tail, heq, hhead⟩ := ih
      refine ⟨r + 1, tail, ?_, hhead⟩
      rw [hc, heq, List.replicate_succ, List.cons_append]
    · exact ⟨0, c :: format, rfl, by simpa using hc⟩

/-- A scan prints half of a run: the rest of it is a conversion with what
follows, or nothing. -/
theorem Scans.rendering_run {f : Str → List Token × Ending} (hf : Scans f) {tail : Str}
    (htail : tail.head? ≠ some '%') :
    ∀ (r : Nat) {rest : Str}, (f (List.replicate r '%' ++ tail)).2 = .text rest → ∃ text,
      rendering (f (List.replicate r '%' ++ tail)) = List.replicate (r / 2) '%' ++ text ∧
      (r % 2 = 0 → text = rendering (f tail) ∧ (f tail).2 = .text rest) ∧
      (r % 2 = 1 → ∃ u, text.head? = some u ∧ u ≠ '%' ∧ tail.head? ≠ some u)
  | 0, rest, h => ⟨rendering (f tail), rfl, fun _ => ⟨rfl, h⟩, fun h => absurd h (by decide)⟩
  | 1, rest, h => by
    have hone : List.replicate 1 '%' ++ tail = '%' :: tail := rfl
    rw [hone] at h ⊢
    cases hfind : findKind ('%' :: tail) with
    | none =>
      rw [hf.unknown hfind] at h
      cases h
    | some entry =>
      obtain ⟨spec, kind⟩ := entry
      obtain ⟨hmem, after, hafter⟩ := findKind_iff.mp hfind
      rw [← hafter] at hfind ⊢
      obtain ⟨letters, hspec, hne, -⟩ := findKind_form hfind
      have hhead : tail.head? = spec.tail.head? := by
        rw [hspec, List.cons_append, List.cons.injEq] at hafter
        rw [← hafter.2, hspec, List.tail_cons, List.head?_append_of_ne_nil _ hne]
      have hnot : spec ≠ ['%', '%'] := by
        intro heq
        rw [hhead, heq] at htail
        exact htail rfl
      obtain ⟨u, hu, hpercent, hletter⟩ := universalText_head hmem hnot
      rw [hf.conv hfind, rendering_cons]
      refine ⟨kind.universalText ++ rendering (f after), rfl, fun h => absurd h (by decide), fun _ => ?_⟩
      refine ⟨u, ?_, hpercent, ?_⟩
      · rw [List.head?_append, hu]
        rfl
      · rw [hhead]
        exact hletter
  | r + 2, rest, h => by
    have htwo : List.replicate (r + 2) '%' ++ tail = ['%', '%'] ++ (List.replicate r '%' ++ tail) := by
      simp [List.replicate_succ]
    have hconv := hf.conv (findKind_percents (List.replicate r '%' ++ tail))
    rw [htwo, hconv] at h ⊢
    obtain ⟨text, htext, heven, hodd⟩ := hf.rendering_run htail r h
    refine ⟨text, ?_, fun hr => heven (by omega), fun hr => hodd (by omega)⟩
    have hhalf : (r + 2) / 2 = r / 2 + 1 := by omega
    rw [rendering_cons, htext, hhalf, List.replicate_succ]
    rfl

theorem scan_rendering_head {tail rest : Str} (htail : tail.head? ≠ some '%') (h : (scan tail).2 = .text rest) :
    (rendering (scan tail)).head? = tail.head? := by
  induction tail using stop_induction with
  | text lead hlead =>
    rw [scan_text hlead]
    rfl
  | unknown lead tail hlead hfind =>
    rw [scan_unknown hlead hfind] at h
    cases h
  | conv lead spec after kind hlead hfind _ =>
    obtain ⟨letters, hspec, -⟩ := findKind_form hfind
    have hne : lead ≠ [] := by
      intro heq
      rw [heq, hspec] at htail
      exact htail rfl
    rw [scan_conv hlead hfind, rendering_cons, List.append_assoc, List.head?_append_of_ne_nil _ hne,
      List.head?_append_of_ne_nil _ hne]

theorem replicate_append_getElem? (m i : Nat) (text : Str) :
    (List.replicate m '%' ++ text)[i]? = if i < m then some '%' else text[i - m]? := by
  rw [List.getElem?_append, List.length_replicate]
  split
  · next h => rw [List.getElem?_replicate, if_pos h]
  · rfl

/-- **The drift shows.** A `%` taken for text and what the loop makes of the
    format behind it is not what the reference makes of the `%`. -/
theorem drift_rendering_ne {format rest rest' : Str} {k : Nat} (hk : 0 < k) (hformat : format.head? = some '%')
    (hdrift : (format.drop k).head? = some '%') (hscan : (scan format).2 = .text rest)
    (htokenize : (tokenize (format.drop k)).2 = .text rest') :
    format.take k ++ rendering (tokenize (format.drop k)) ≠ rendering (scan format) := by
  obtain ⟨r, tail, rfl, htail⟩ := exists_run format
  obtain ⟨text, htext, heven, hodd⟩ := scans_scan.rendering_run htail r hscan
  have hr : 0 < r := by
    rcases Nat.eq_zero_or_pos r with h0 | hpos
    · rw [h0] at hformat
      exact absurd hformat htail
    · exact hpos
  -- behind half of the run the reference has no `%`
  have hplace : (rendering (scan (List.replicate r '%' ++ tail)))[r / 2]? ≠ some '%' := by
    rw [htext, replicate_append_getElem?, if_neg (Nat.lt_irrefl _), Nat.sub_self, ← List.head?_eq_getElem?]
    rcases Nat.mod_two_eq_zero_or_one r with h | h
    · rw [(heven h).1, scan_rendering_head htail (heven h).2]
      exact htail
    · obtain ⟨u, hu, hne, -⟩ := hodd h
      rw [hu]
      simpa using hne
  intro heq
  apply hplace
  rw [← heq]
  rcases Nat.lt_trichotomy k r with hlt | rfl | hgt
  · -- the loop takes `k` of the run for text and scans the others
    have htake : (List.replicate r '%' ++ tail).take k = List.replicate k '%' := by
      rw [List.take_append_of_le_length (by simp; omega), List.take_replicate, Nat.min_eq_left (by omega)]
    have hdrop : (List.replicate r '%' ++ tail).drop k = List.replicate (r - k) '%' ++ tail := by
      rw [List.drop_append_of_le_length (by simp; omega), List.drop_replicate]
    rw [hdrop] at htokenize
    obtain ⟨text', htext', -, hodd'⟩ := scans_tokenize.rendering_run htail (r - k) htokenize
    rw [htake, hdrop, htext', ← List.append_assoc, ← List.replicate_add] at heq ⊢
    rw [replicate_append_getElem?]
    split
    · rfl
    next hplaces =>
    -- one `%` before an odd number: the loop reads a conversion where the reference copies its letters
    have hone : k = 1 ∧ r % 2 = 0 := by omega
    obtain ⟨u, hu, -, hletter⟩ := hodd' (by omega)
    have hloop := congrArg (fun s : Str => s[r / 2]?) heq
    simp only [replicate_append_getElem?, htext] at hloop
    have hzero : r / 2 - (k + (r - k) / 2) = 0 := by omega
    rw [if_neg hplaces, if_neg (Nat.lt_irrefl _), Nat.sub_self, hzero, ← List.head?_eq_getElem?,
      ← List.head?_eq_getElem?, hu, (heven hone.2).1, scan_rendering_head htail (heven hone.2).2] at hloop
    exact absurd hloop.symm hletter
  · -- the loop takes the run, and no `%` follows
    rw [List.drop_left' (List.length_replicate ..)] at hdrift
    exact absurd hdrift htail
  · -- the loop takes the run and more for text
    have htake : (List.replicate r '%' ++ tail).take k = List.replicate r '%' ++ tail.take (k - r) := by
      rw [List.take_append, List.length_replicate, List.take_of_length_le (by simp; omega)]
    rw [htake, List.append_assoc, replicate_append_getElem?, if_pos (by omega)]

theorem tokenize_drift_text {lead rest text : Str} (h : '%' ∉ lead)
    (htext : (tokenize (lead ++ '%' :: rest)).2 = .text text) :
    (('%' :: rest).drop (drift lead)).head? = some '%' ∧
      (tokenize (('%' :: rest).drop (drift lead))).2 = .text text ∧
      rendering (tokenize (lead ++ '%' :: rest)) =
        lead ++ (('%' :: rest).take (drift lead) ++ rendering (tokenize (('%' :: rest).drop (drift lead)))) := by
  rw [tokenize_drift h] at htext ⊢
  cases hdrop : ('%' :: rest).drop (drift lead) with
  | nil =>
    rw [hdrop] at htext
    cases htext
  | cons c rest' =>
    simp only [hdrop] at htext ⊢
    cases hfind : findKind (c :: rest') with
    | none =>
      simp only [hfind] at htext
      cases htext
    | some entry =>
      obtain ⟨spec, kind⟩ := entry
      have hc : c = '%' := by
        by_contra hne
        rw [findKind_percent hne] at hfind
        cases hfind
      obtain ⟨-, after, hafter⟩ := findKind_iff.mp hfind
      have hnext : (c :: rest').drop spec.length = after := by rw [← hafter, List.drop_left]
      simp only [hfind, hnext] at htext ⊢
      rw [← hafter] at hfind ⊢
      rw [scans_tokenize.conv hfind, rendering_cons, rendering_cons, hafter]
      refine ⟨by rw [hc]; rfl, htext, ?_⟩
      simp only [List.append_assoc, List.nil_append]

/-- **Not aligned**, and both scans come to the end: universal arguments show
    it. -/
theorem rendering_ne {format rest rest' : Str} (h : ¬Aligned format) (hscan : (scan format).2 = .text rest)
    (htokenize : (tokenize format).2 = .text rest') : rendering (tokenize format) ≠ rendering (scan format) := by
  induction format using stop_induction with
  | text lead hlead => exact absurd (aligned_text hlead) h
  | unknown lead tail hlead hfind =>
    rw [scan_unknown hlead hfind] at hscan
    cases hscan
  | conv lead spec tail kind hlead hfind ih =>
    rw [aligned_conv hlead hfind] at h
    by_cases hascii : Utf8.IsAscii lead
    · -- both take this conversion
      rw [scan_conv hlead hfind] at hscan ⊢
      rw [tokenize_conv hlead hascii hfind] at htokenize ⊢
      rw [rendering_cons, rendering_cons]
      intro heq
      exact ih (fun htail => h ⟨hascii, htail⟩) hscan htokenize (List.append_cancel_left heq)
    · obtain ⟨letters, hspec, -⟩ := findKind_form hfind
      have hk : 0 < drift lead := Nat.pos_of_ne_zero fun hzero => hascii ((drift_eq_zero_iff lead).mp hzero)
      have hfront : scan (spec ++ tail) = (⟨[], spec, kind⟩ :: (scan tail).1, (scan tail).2) := scans_scan.conv hfind
      have hrendering : rendering (scan (lead ++ (spec ++ tail))) = lead ++ rendering (scan (spec ++ tail)) := by
        rw [scan_conv hlead hfind, hfront, rendering_cons, rendering_cons]
        simp only [List.append_assoc, List.nil_append]
      have hending : (scan (spec ++ tail)).2 = .text rest := by
        rw [scan_conv hlead hfind] at hscan
        rw [hfront]
        exact hscan
      rw [hrendering]
      rw [hspec, List.cons_append] at htokenize hending ⊢
      obtain ⟨hhead, htext, hdrift⟩ := tokenize_drift_text hlead htokenize
      rw [hdrift]
      intro heq
      exact drift_rendering_ne hk rfl hhead hending htext (List.append_cancel_left heq)

theorem scan_ending (format : Str) : (∃ rest, (scan format).2 = .text rest) ∨ (scan format).2 = .unknown '%' := by
  induction format using stop_induction with
  | text lead hlead => exact .inl ⟨lead, by rw [scan_text hlead]⟩
  | unknown lead tail hlead hfind => exact .inr (by rw [scan_unknown hlead hfind])
  | conv lead spec tail kind hlead hfind ih =>
    rw [scan_conv hlead hfind]
    exact ih

section
variable (crates : Crates)

/-- The loop returns what the reference returns, on all arguments on which no
handler of either panics. -/
def RendersAsReference (format : Str) : Prop := ∀ elf arguments,
  ¬ReachesPanic crates elf (tokenize format).1 arguments → ¬ReachesPanic crates elf (scan format).1 arguments →
    formatString crates elf format arguments = reference crates elf format arguments

/-- Both scans end at an unknown conversion, behind the same readers. -/
def SameUnknown (format : Str) : Prop :=
  (tokenize format).2 = .unknown '%' ∧ (scan format).2 = .unknown '%' ∧
    readers (tokenize format).1 = readers (scan format).1

theorem rendersAsReference_of_aligned {format : Str} (h : Aligned format) (elf : ElfMetadata) (arguments : Bytes) :
    formatString crates elf format arguments = reference crates elf format arguments := by
  rw [formatString_eq, reference_eq, tokenize_aligned format h]

theorem rendersAsReference_of_sameUnknown {format : Str} (h : SameUnknown format) (elf : ElfMetadata)
    (arguments : Bytes) : formatString crates elf format arguments = reference crates elf format arguments := by
  obtain ⟨htokenize, hscan, hreaders⟩ := h
  rw [formatString_eq, reference_eq, htokenize, hscan, runTokens_unknown, runTokens_unknown, hreaders]

variable {crates}

theorem RendersAsReference.universal (hcrates : crates.Documented) {format : Str}
    (h : RendersAsReference crates format) : (tokenize format).2.result (universalOut (tokenize format).1) =
      (scan format).2.result (universalOut (scan format).1) := by
  -- as many copies as either run reads, in either order
  have hcomm : universals (readers (tokenize format).1).length ++ universals (readers (scan format).1).length =
      universals (readers (scan format).1).length ++ universals (readers (tokenize format).1).length := by
    rw [← universals_add, ← universals_add, Nat.add_comm]
  have hloop := not_reachesPanic_universal hcrates (tokenize format).1 (universals (readers (scan format).1).length)
  have hreference := not_reachesPanic_universal hcrates (scan format).1 (universals (readers (tokenize format).1).length)
  have heq := h universalElf _ hloop (by rw [hcomm]; exact hreference)
  rw [formatString_eq, reference_eq, runTokens_universal hcrates, hcomm, runTokens_universal hcrates,
    List.nil_append, List.nil_append] at heq
  exact heq

theorem not_reachesPanic_unknown {elf : ElfMetadata} {c : Char} {tokens : List Token} {arguments : Bytes}
    (h : readAll crates elf c (readers tokens) arguments ≠ .panic) : ¬ReachesPanic crates elf tokens arguments := by
  intro hreaches
  apply h
  have hpanic := (runTokens_panic_iff crates elf (.unknown c) tokens [] arguments).mpr (.inl hreaches)
  rw [runTokens_unknown, Except.error.injEq] at hpanic
  exact hpanic

theorem sameUnknown_of_rendersAsReference (hcrates : crates.Documented) {format : Str}
    (h : RendersAsReference crates format) (hnot : ¬Aligned format) : SameUnknown format := by
  have huniversal := h.universal hcrates
  rcases scan_ending format with ⟨rest, hscan⟩ | hscan
  · -- the reference comes to the end, so the loop does, with another text
    rw [hscan] at huniversal
    cases htokenize : (tokenize format).2 with
    | text rest' =>
      rw [htokenize] at huniversal
      refine absurd ?_ (rendering_ne hnot hscan htokenize)
      rw [rendering, rendering, htokenize, hscan]
      exact Except.ok.inj huniversal
    | unknown c => rw [htokenize] at huniversal; cases huniversal
    | pastEnd => rw [htokenize] at huniversal; cases huniversal
  · rw [hscan] at huniversal
    have htokenize : (tokenize format).2 = .unknown '%' := by
      cases hend : (tokenize format).2 with
      | text rest => rw [hend] at huniversal; cases huniversal
      | unknown c => rw [hend] at huniversal; cases huniversal; rfl
      | pastEnd => rw [hend] at huniversal; cases huniversal
    refine ⟨htokenize, hscan, ?_⟩
    by_contra hne
    obtain ⟨arguments, hapart, hloop, hreference⟩ := readAll_separates hcrates '%' hne
    have heq := h universalElf arguments (not_reachesPanic_unknown hloop) (not_reachesPanic_unknown hreference)
    rw [formatString_eq, reference_eq, htokenize, hscan, runTokens_unknown, runTokens_unknown,
      Except.error.injEq] at heq
    exact hapart heq

end

/-- **The renderer is the one-pass reference** on a format exactly when the
    format is aligned, or the same unknown conversion is all that comes of it. -/
theorem renders_as_reference_iff (crates : Crates) (hcrates : crates.Documented) (format : Str) :
    RendersAsReference crates format ↔ Aligned format ∨ SameUnknown format := by
  constructor
  · intro h
    by_cases haligned : Aligned format
    · exact .inl haligned
    · exact .inr (sameUnknown_of_rendersAsReference hcrates h haligned)
  · intro h elf arguments _ _
    rcases h with haligned | hsame
    · exact rendersAsReference_of_aligned crates haligned elf arguments
    · exact rendersAsReference_of_sameUnknown crates hsame elf arguments

/-! One format with its arguments. -/

section
variable (crates : Crates) (elf : ElfMetadata)

/-- What the handlers of some tokens leave, if all return. -/
def runFront : List Token → Str → Bytes → Res (Str × Bytes)
  | [], out, arguments => .ok (out, arguments)
  | t :: tokens, out, arguments =>
    match t.kind.handler crates elf (out ++ t.lead) arguments with
    | .error exit => .error exit
    | .ok (out, arguments) => runFront tokens out arguments

theorem runTokens_append (ending : Ending) (tokens : List Token) : ∀ (front : List Token) (out : Str) (arguments : Bytes),
    (runTokens crates elf ending (front ++ tokens) out arguments).2 = match runFront crates elf front out arguments with
      | .error exit => .error exit
      | .ok (out, arguments) => (runTokens crates elf ending tokens out arguments).2
  | [], _, _ => rfl
  | t :: front, out, arguments => by
    rw [List.cons_append, runTokens, runFront]
    cases t.kind.handler crates elf (out ++ t.lead) arguments with
    | error exit => rfl
    | ok r => exact runTokens_append ending tokens front r.1 r.2

/-- **Where one input shows no drift**: the arguments stop the run at one of the
    conversions that both scans begin with, or what is behind these comes to the
    same. -/
theorem formatString_eq_reference_iff {format : Str} {front loop scanned : List Token}
    (hloop : (tokenize format).1 = front ++ loop) (hscan : (scan format).1 = front ++ scanned) (arguments : Bytes) :
    formatString crates elf format arguments = reference crates elf format arguments ↔
      ∀ out left, runFront crates elf front [] arguments = .ok (out, left) →
        (runTokens crates elf (tokenize format).2 loop out left).2 =
          (runTokens crates elf (scan format).2 scanned out left).2 := by
  rw [formatString_eq, reference_eq, hloop, hscan, runTokens_append, runTokens_append]
  cases hfront : runFront crates elf front [] arguments with
  | error exit => exact iff_of_true rfl fun out left h => by cases h
  | ok r =>
    constructor
    · intro heq out left hleft
      cases hleft
      exact heq
    · exact fun h => h r.1 r.2 rfl

end

/-- Without arguments the run stops in front of the drift. -/
example (elf : ElfMetadata) : formatString Crates.reference elf "%dé%d".toList [] =
    reference Crates.reference elf "%dé%d".toList [] := by
  have hfind : findKind ("%d".toList ++ "é%d".toList) = some ("%d".toList, .signed) := by decide
  let front : List Token := [⟨[], "%d".toList, .signed⟩]
  have hloop : (tokenize "%dé%d".toList).1 = front ++ (tokenize "é%d".toList).1 :=
    congrArg Prod.fst (tokenize_conv List.not_mem_nil (by simp [Utf8.IsAscii]) hfind)
  have hscan : (scan "%dé%d".toList).1 = front ++ (scan "é%d".toList).1 :=
    congrArg Prod.fst (scan_conv List.not_mem_nil hfind)
  refine (formatString_eq_reference_iff Crates.reference elf hloop hscan []).mpr ?_
  intro out left h
  cases h

theorem renders_as_reference_degrees : RendersAsReference Crates.reference "%s: %d °C".toList :=
  (renders_as_reference_iff Crates.reference Crates.reference_documented "%s: %d °C".toList).mpr (.inl (by decide))

/-- Behind a character of two bytes the loop looks for an entry at the `d`. -/
theorem percent_behind_accent_fails :
    ¬∀ crates : Crates, crates.Documented → ∀ format, RendersAsReference crates format := by
  intro h
  have hpos : findPercent "é%d".toList = some 2 := by decide
  have htokenize : tokenize "é%d".toList = ([], .unknown 'd') := tokenize_turn hpos rfl
  have hloop : ¬ReachesPanic Crates.reference ⟨1, [], []⟩ (tokenize "é%d".toList).1 [5] := by
    rw [htokenize]
    exact not_reachesPanic_unknown (c := 'd') (by simp [readers, readAll])
  have hreference : ¬ReachesPanic Crates.reference ⟨1, [], []⟩ (scan "é%d".toList).1 [5] := by
    intro hreaches
    have hpanic := (runTokens_panic_iff Crates.reference ⟨1, [], []⟩ (.text []) (scan "é%d".toList).1 [] [5]).mpr
      (.inl hreaches)
    cases hpanic
  have heq := h Crates.reference Crates.reference_documented "é%d".toList ⟨1, [], []⟩ [5] hloop hreference
  rw [formatString_eq, htokenize] at heq
  cases heq

end Postform.Host
