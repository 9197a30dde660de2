import Postform.DecoderSafety

/- What `format_string` is to return: one scan of the format from left to right,
   by characters. `reference` is that scan, `scan` the entries it meets, in the
   form `tokenize` has for the loop.

   The loop takes the byte position of a `%` for a number of characters, so at a
   stop behind text of more bytes than characters it drifts off the `%` by the
   difference (`tokenize_drift`). Up to the first such stop the two scans are
   one; a format without one is `Aligned` (`tokenize_aligned`). -/
namespace Postform.Host

open Wire

section
variable (crates : Crates) (elf : ElfMetadata)

/-- The scan, with `skip` characters of the conversion applied last to go. -/
def referenceFrom : Nat → Str → Str → Bytes → Res Str
  | _, [], formattedStr, _ => .ok formattedStr
  | skip + 1, _ :: format, formattedStr, arguments => referenceFrom skip format formattedStr arguments
  | 0, c :: format, formattedStr, arguments =>
    if c = '%' then
      match findSpec crates elf (c :: format) with
      | none => .error (.err (.invalidFormatSpecifier c))
      | some (formatSpec, handler) =>
        match handler formattedStr arguments with
        | .error exit => .error exit
        | .ok (formattedStr, arguments) => referenceFrom (formatSpec.length - 1) format formattedStr arguments
    else referenceFrom 0 format (formattedStr ++ [c]) arguments

/-- The one-pass reference: literal characters are copied, and at each `%` the
conversion that starts there is applied to the arguments left and skipped. -/
def reference (format : Str) (arguments : Bytes) : Res Str := referenceFrom crates elf 0 format [] arguments

end

/-- The entries the reference meets, behind the text `lead`. -/
def scanFrom : Nat → Str → Str → List Token × Ending
  | _, lead, [] => ([], .text lead)
  | skip + 1, lead, _ :: format => scanFrom skip lead format
  | 0, lead, c :: format =>
    if c = '%' then
      match findKind (c :: format) with
      | none => ([], .unknown c)
      | some (spec, kind) =>
        let (tokens, ending) := scanFrom (spec.length - 1) [] format
        (⟨lead, spec, kind⟩ :: tokens, ending)
    else scanFrom 0 (lead ++ [c]) format

def scan (format : Str) : List Token × Ending := scanFrom 0 [] format

/-- No `%` the scan stops at has a character of several bytes between it and
the stop before; `ascii` says so of the text since then. -/
def alignedFrom : Nat → Bool → Str → Bool
  | _, _, [] => true
  | skip + 1, ascii, _ :: format => alignedFrom skip ascii format
  | 0, ascii, c :: format =>
    if c = '%' then
      ascii && match findKind (c :: format) with
        | none => true
        | some (spec, _) => alignedFrom (spec.length - 1) true format
    else alignedFrom 0 (ascii && decide (c.toNat < 128)) format

def Aligned (format : Str) : Prop := alignedFrom 0 true format = true

instance (format : Str) : Decidable (Aligned format) := inferInstanceAs (Decidable (alignedFrom 0 true format = true))

/-! The entries of the table. -/

theorem specKinds_form : ∀ entry ∈ specKinds, ∃ letters, entry.1 = '%' :: letters ∧ letters ≠ [] ∧
    Utf8.IsAscii entry.1 := by
  intro entry hentry
  have hall : ∀ entry ∈ specKinds,
      entry.1 = '%' :: entry.1.tail ∧ entry.1.tail ≠ [] ∧ Utf8.IsAscii entry.1 := by decide
  exact ⟨entry.1.tail, hall entry hentry⟩

theorem specKinds_prefixFree : ∀ a ∈ specKinds, ∀ b ∈ specKinds, a.1 <+: b.1 → a = b := by
  simp only [← List.isPrefixOf_iff_prefix]
  decide

/-- **The conversion at a place is unique.** -/
theorem findKind_iff {format spec : Str} {kind : Kind} :
    findKind format = some (spec, kind) ↔ (spec, kind) ∈ specKinds ∧ spec <+: format := by
  constructor
  · intro h
    exact ⟨List.mem_of_find?_eq_some h, (findKind_spec h).1⟩
  · intro h
    obtain ⟨hmem, hprefix⟩ := h
    have hsome : (findKind format).isSome := by
      rw [findKind, List.find?_isSome]
      exact ⟨(spec, kind), hmem, List.isPrefixOf_iff_prefix.mpr hprefix⟩
    obtain ⟨other, hother⟩ := Option.isSome_iff_exists.mp hsome
    have hothermem := List.mem_of_find?_eq_some hother
    rw [hother]
    congr 1
    rcases List.prefix_or_prefix_of_prefix (findKind_spec hother).1 hprefix with hle | hle
    · exact specKinds_prefixFree _ hothermem _ hmem hle
    · exact (specKinds_prefixFree _ hmem _ hothermem hle).symm

theorem findKind_percents (format : Str) : findKind (['%', '%'] ++ format) = some (['%', '%'], .percent) := by
  rw [findKind_iff]
  exact ⟨by decide, List.prefix_append ..⟩

theorem findKind_form {spec tail : Str} {kind : Kind} (h : findKind (spec ++ tail) = some (spec, kind)) :
    ∃ letters, spec = '%' :: letters ∧ letters ≠ [] ∧ Utf8.size spec = spec.length := by
  obtain ⟨letters, hspec, hne, hascii⟩ := specKinds_form _ (findKind_iff.mp h).1
  exact ⟨letters, hspec, hne, Utf8.size_ascii hascii⟩

theorem findKind_percent {c : Char} {rest : Str} (h : c ≠ '%') : findKind (c :: rest) = none := by
  rw [Option.eq_none_iff_forall_ne_some]
  intro entry hentry
  obtain ⟨letters, hspec, -⟩ := specKinds_form _ (List.mem_of_find?_eq_some hentry)
  obtain ⟨tail, htail⟩ := (findKind_spec hentry).1
  rw [hspec, List.cons_append, List.cons.injEq] at htail
  exact h htail.1.symm

theorem stop_induction {P : Str → Prop} (text : ∀ lead, '%' ∉ lead → P lead)
    (unknown : ∀ lead rest, '%' ∉ lead → findKind ('%' :: rest) = none → P (lead ++ '%' :: rest))
    (conv : ∀ lead spec tail kind, '%' ∉ lead → findKind (spec ++ tail) = some (spec, kind) → P tail →
      P (lead ++ (spec ++ tail))) (format : Str) : P format := by
  induction hn : format.length using Nat.strongRecOn generalizing format with
  | ind n ih =>
    by_cases hmem : '%' ∈ format
    · obtain ⟨lead, rest, rfl, hlead⟩ := List.eq_append_cons_of_mem hmem
      cases hfind : findKind ('%' :: rest) with
      | none => exact unknown lead rest hlead hfind
      | some entry =>
        obtain ⟨spec, kind⟩ := entry
        obtain ⟨tail, htail⟩ := (findKind_spec hfind).1
        rw [← htail] at hfind hn ⊢
        obtain ⟨letters, hspec, -⟩ := findKind_form hfind
        refine conv lead spec tail kind hlead hfind (ih tail.length ?_ tail rfl)
        rw [← hn, hspec]
        simp only [List.length_append, List.length_cons]
        omega
    · exact text format hmem

/-! The scans by the stops. -/

theorem scanFrom_skip (lead spec tail : Str) : scanFrom spec.length lead (spec ++ tail) = scanFrom 0 lead tail := by
  induction spec with
  | nil => rfl
  | cons c spec ih => rw [List.length_cons, List.cons_append, scanFrom, ih]

theorem scanFrom_lead {lead : Str} (h : '%' ∉ lead) (before rest : Str) :
    scanFrom 0 before (lead ++ rest) = scanFrom 0 (before ++ lead) rest := by
  induction lead generalizing before with
  | nil => rw [List.nil_append, List.append_nil]
  | cons c lead ih =>
    rw [List.mem_cons, not_or] at h
    rw [List.cons_append, scanFrom, if_neg (Ne.symm h.1), ih h.2, List.append_assoc]
    rfl

theorem scan_text {lead : Str} (h : '%' ∉ lead) : scan lead = ([], .text lead) := by
  rw [scan, ← List.append_nil lead, scanFrom_lead h, scanFrom, List.nil_append, List.append_nil]

theorem scan_unknown {lead rest : Str} (h : '%' ∉ lead) (hfind : findKind ('%' :: rest) = none) :
    scan (lead ++ '%' :: rest) = ([], .unknown '%') := by
  rw [scan, scanFrom_lead h, scanFrom, if_pos rfl, hfind]

theorem scan_conv {lead spec tail : Str} {kind : Kind} (h : '%' ∉ lead)
    (hfind : findKind (spec ++ tail) = some (spec, kind)) :
    scan (lead ++ (spec ++ tail)) = (⟨lead, spec, kind⟩ :: (scan tail).1, (scan tail).2) := by
  obtain ⟨letters, hspec, -⟩ := findKind_form hfind
  rw [hspec, List.cons_append] at hfind
  rw [scan, scanFrom_lead h, hspec, List.cons_append, scanFrom, if_pos rfl, hfind]
  simp only [List.length_cons, Nat.add_sub_cancel, scanFrom_skip, List.nil_append]
  rfl

theorem alignedFrom_skip (ascii : Bool) (spec tail : Str) :
    alignedFrom spec.length ascii (spec ++ tail) = alignedFrom 0 ascii tail := by
  induction spec with
  | nil => rfl
  | cons c spec ih => rw [List.length_cons, List.cons_append, alignedFrom, ih]

theorem alignedFrom_lead {lead : Str} (h : '%' ∉ lead) (ascii : Bool) (rest : Str) :
    alignedFrom 0 ascii (lead ++ rest) = alignedFrom 0 (ascii && lead.all fun c => decide (c.toNat < 128)) rest := by
  induction lead generalizing ascii with
  | nil => rw [List.nil_append, List.all_nil, Bool.and_true]
  | cons c lead ih =>
    rw [List.mem_cons, not_or] at h
    rw [List.cons_append, alignedFrom, if_neg (Ne.symm h.1), ih h.2, List.all_cons, Bool.and_assoc]

theorem all_ascii_iff (lead : Str) : (lead.all fun c => decide (c.toNat < 128)) = true ↔ Utf8.IsAscii lead := by
  rw [List.all_eq_true, Utf8.IsAscii]
  simp only [decide_eq_true_eq]

theorem aligned_text {lead : Str} (h : '%' ∉ lead) : Aligned lead := by
  rw [Aligned, ← List.append_nil lead, alignedFrom_lead h, alignedFrom]

theorem aligned_unknown {lead rest : Str} (h : '%' ∉ lead) (hfind : findKind ('%' :: rest) = none) :
    Aligned (lead ++ '%' :: rest) ↔ Utf8.IsAscii lead := by
  rw [Aligned, alignedFrom_lead h, alignedFrom, if_pos rfl, hfind, Bool.true_and, Bool.and_true, all_ascii_iff]

theorem aligned_conv {lead spec tail : Str} {kind : Kind} (h : '%' ∉ lead)
    (hfind : findKind (spec ++ tail) = some (spec, kind)) :
    Aligned (lead ++ (spec ++ tail)) ↔ Utf8.IsAscii lead ∧ Aligned tail := by
  obtain ⟨letters, hspec, -⟩ := findKind_form hfind
  rw [hspec, List.cons_append] at hfind
  rw [Aligned, alignedFrom_lead h, hspec, List.cons_append, alignedFrom, if_pos rfl, hfind, Bool.true_and,
    Bool.and_eq_true, all_ascii_iff]
  simp only [List.length_cons, Nat.add_sub_cancel, alignedFrom_skip, Aligned]

/-- How far the byte position of what follows a text is past the number of its
characters. -/
def drift (lead : Str) : Nat := Utf8.size lead - lead.length

theorem length_le_size (lead : Str) : lead.length ≤ Utf8.size lead := by
  induction lead with
  | nil => exact Nat.le_refl 0
  | cons c lead ih =>
    have hpos := c.utf8Size_pos
    simp only [Utf8.size, List.map_cons, List.sum_cons, List.length_cons] at ih ⊢
    omega

theorem drift_eq_zero_iff (lead : Str) : drift lead = 0 ↔ Utf8.IsAscii lead := by
  constructor
  · intro h
    induction lead with
    | nil => simp [Utf8.IsAscii]
    | cons c lead ih =>
      have hpos := c.utf8Size_pos
      have hle := length_le_size lead
      simp only [drift, Utf8.size, List.map_cons, List.sum_cons, List.length_cons] at h hle
      have hc : c.utf8Size = 1 := by omega
      rw [Utf8.IsAscii, List.forall_mem_cons]
      refine ⟨?_, ih (by simp only [drift, Utf8.size]; omega)⟩
      rw [Char.utf8Size_eq_one_iff, UInt32.le_iff_toNat_le] at hc
      exact Nat.lt_succ_of_le hc
  · intro h
    rw [drift, Utf8.size_ascii h, Nat.sub_self]

theorem tokenize_noPercent {lead : Str} (h : '%' ∉ lead) : tokenize lead = ([], .text lead) := by
  rw [tokenize, findPercent_none h]

/-- **The loop drifts** at a stop: it looks for an entry that many characters
    past the `%`, and takes those for text. -/
theorem tokenize_drift {lead : Str} (h : '%' ∉ lead) (rest : Str) :
    tokenize (lead ++ '%' :: rest) = match ('%' :: rest).drop (drift lead) with
      | [] => ([], .pastEnd)
      | c :: rest' => match findKind (c :: rest') with
        | none => ([], .unknown c)
        | some (spec, kind) =>
          let (tokens, ending) := tokenize ((c :: rest').drop spec.length)
          (⟨lead ++ ('%' :: rest).take (drift lead), spec, kind⟩ :: tokens, ending) := by
  have hpos := findPercent_lead h rest
  have hsize : Utf8.size lead = lead.length + drift lead := by
    have := length_le_size lead
    rw [drift]
    omega
  have hdrop : (lead ++ '%' :: rest).drop (Utf8.size lead) = ('%' :: rest).drop (drift lead) := by
    rw [hsize, ← List.drop_drop, List.drop_left]
  have htake : (lead ++ '%' :: rest).take (Utf8.size lead) = lead ++ ('%' :: rest).take (drift lead) := by
    rw [hsize, List.take_length_add_append]
  cases hrest : ('%' :: rest).drop (drift lead) with
  | nil =>
    rw [hrest] at hdrop
    rw [tokenize]
    simp only [hpos]
    split
    · rfl
    · next hcons => rw [hdrop] at hcons; cases hcons
  | cons c rest' =>
    rw [hrest] at hdrop
    rw [tokenize_turn hpos hdrop, htake]
    cases hfind : findKind (c :: rest') with
    | none => simp only [hfind]
    | some entry =>
      obtain ⟨letters, hspec, -, hascii⟩ := specKinds_form _ (List.mem_of_find?_eq_some hfind)
      simp only [hfind, Utf8.size_ascii hascii]

theorem tokenize_conv {lead spec tail : Str} {kind : Kind} (h : '%' ∉ lead) (hascii : Utf8.IsAscii lead)
    (hfind : findKind (spec ++ tail) = some (spec, kind)) :
    tokenize (lead ++ (spec ++ tail)) = (⟨lead, spec, kind⟩ :: (tokenize tail).1, (tokenize tail).2) := by
  obtain ⟨letters, hspec, -, hsize⟩ := findKind_form hfind
  rw [hspec, List.cons_append] at hfind ⊢
  rw [tokenize_lead h hascii, hfind]
  rw [hspec] at hsize
  simp only [hsize, ← List.cons_append, List.drop_left]

/-- **An aligned format** is scanned by the loop as by the reference. -/
theorem tokenize_aligned (format : Str) (h : Aligned format) : tokenize format = scan format := by
  induction format using stop_induction with
  | text lead hlead => rw [tokenize_noPercent hlead, scan_text hlead]
  | unknown lead rest hlead hfind =>
    have hascii := (aligned_unknown hlead hfind).mp h
    rw [tokenize_lead hlead hascii, hfind, scan_unknown hlead hfind]
  | conv lead spec tail kind hlead hfind ih =>
    obtain ⟨hascii, htail⟩ := (aligned_conv hlead hfind).mp h
    rw [tokenize_conv hlead hascii hfind, scan_conv hlead hfind, ih htail]

/-! The reference by its scan. -/

section
variable (crates : Crates) (elf : ElfMetadata)

theorem referenceFrom_eq (format : Str) : ∀ (skip : Nat) (out lead : Str) (arguments : Bytes),
    referenceFrom crates elf skip format (out ++ lead) arguments =
      (runTokens crates elf (scanFrom skip lead format).2 (scanFrom skip lead format).1 out arguments).2 := by
  induction format with
  | nil =>
    intro skip out lead arguments
    cases skip <;> rfl
  | cons c format ih =>
    intro skip out lead arguments
    cases skip with
    | succ skip => rw [referenceFrom, scanFrom, ih]
    | zero =>
      by_cases hc : c = '%'
      · rw [referenceFrom, scanFrom, if_pos hc, if_pos hc, findSpec_eq]
        cases hfind : findKind (c :: format) with
        | none => rfl
        | some entry =>
          simp only [Option.map_some, runTokens]
          cases hrun : entry.2.handler crates elf (out ++ lead) arguments with
          | error exit => rfl
          | ok r =>
            have ih := ih (entry.1.length - 1) r.1 [] r.2
            rw [List.append_nil] at ih
            exact ih
      · rw [referenceFrom, scanFrom, if_neg hc, if_neg hc, List.append_assoc, ih]

/-- **The reference is its scan and the run**, as the loop is its own. -/
theorem reference_eq (format : Str) (arguments : Bytes) : reference crates elf format arguments =
    (runTokens crates elf (scan format).2 (scan format).1 [] arguments).2 :=
  referenceFrom_eq crates elf format 0 [] [] arguments

theorem formatString_eq (format : Str) (arguments : Bytes) : formatString crates elf format arguments =
    (runTokens crates elf (tokenize format).2 (tokenize format).1 [] arguments).2 := by
  rw [formatString, formatLoop_eq]

end

end Postform.Host
