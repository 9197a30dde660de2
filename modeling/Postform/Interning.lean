import Postform.Handlers

/- Interned strings. `.interned_strings` is a sequence of NUL-terminated entries,
   and a log macro's entry is the file, the line and the format with an `@`
   between them. The host finds an entry whole, whatever stands around it
   (`recoverInternedString_at`), and takes it apart at every `@`: it gets the
   three parts back exactly when file and format have no `@` of their own
   (`decodeFormatString_internedText_iff`). -/
namespace Postform

open Wire Host

/-- `__FILE__ "@" __POSTFORM_EXPAND_AND_STRINGIFY(__LINE__) "@" fmt`. -/
def internedText (file : Str) (line : Nat) (fmt : Str) : Str := file ++ '@' :: (Nat.toDigits 10 line ++ '@' :: fmt)

/-- The entries of a string table, each ended by its NUL. -/
def stringTable (entries : List Bytes) : Bytes := (entries.map (· ++ [0])).flatten

/-- **An entry is found at its offset**, up to its NUL. -/
theorem recoverInternedString_at {elf : ElfMetadata} {pre bytes post : Bytes}
    (hstrings : elf.strings = pre ++ (bytes ++ 0 :: post)) (hnul : 0 ∉ bytes) :
    elf.recoverInternedString pre.length = .ok (Utf8.fromUtf8Lossy bytes) := by
  have hdrop : elf.strings.drop pre.length = bytes ++ 0 :: post := by rw [hstrings, List.drop_left]
  have hidx : (bytes ++ 0 :: post).idxOf 0 = bytes.length := by
    rw [List.idxOf_append_of_notMem hnul]; simp
  rw [recoverInternedString_eq, if_neg, hdrop, if_pos (by simp), hidx, List.take_left]
  rw [hstrings]
  simp

theorem parseU32_digits {s : Str} (hne : s ≠ []) (hdigit : ∀ c ∈ s, c.isDigit = true)
    (hfits : Nat.ofDigitChars 10 s 0 < 2 ^ 32) : parseU32 s = some (Nat.ofDigitChars 10 s 0) := by
  have hplus : ∀ digits, s = '+' :: digits → False := fun digits h =>
    absurd (hdigit '+' (h ▸ List.mem_cons_self)) (by decide)
  rw [parseU32]
  · exact if_pos ⟨hne, List.all_eq_true.mpr hdigit, hfits⟩
  · exact hplus

/-! The parts of an entry. -/

section
variable {file fmt : Str} {line : Nat}

theorem digit_of_mem_line {c : Char} (hc : c ∈ Nat.toDigits 10 line) : c.isDigit = true :=
  Nat.isDigit_of_mem_toDigits (by decide) (by decide) hc

theorem parseU32_line (hline : line < 2 ^ 32) : parseU32 (Nat.toDigits 10 line) = some line := by
  have hback := Nat.ofDigitChars_ten_toDigits (n := line)
  rw [parseU32_digits Nat.toDigits_ne_nil (fun c hc => digit_of_mem_line hc) (by rw [hback]; exact hline), hback]

theorem splitOn_internedText (hfile : '@' ∉ file) :
    (internedText file line fmt).splitOn '@' = file :: Nat.toDigits 10 line :: fmt.splitOn '@' := by
  have hline : '@' ∉ Nat.toDigits 10 line := fun h => absurd (digit_of_mem_line h) (by decide)
  rw [internedText, List.splitOn_append_cons_self_of_not_mem hfile, List.splitOn_append_cons_self_of_not_mem hline]

/-- **The host splits an entry back** into file, line and format. -/
theorem decodeFormatString_internedText (hfile : '@' ∉ file) (hline : line < 2 ^ 32) (hfmt : '@' ∉ fmt) :
    decodeFormatString (internedText file line fmt) = .ok (file, line, fmt) := by
  rw [decodeFormatString, splitOn_internedText hfile, List.splitOn_eq_singleton hfmt]
  simp only [List.getElem?_cons_zero, List.getElem?_cons_succ, okOr, Bind.bind, Except.bind, parseU32_line hline]
  rfl

theorem pieces_of_decodeFormatString {s f g : Str} {l : Nat} (h : decodeFormatString s = .ok (f, l, g)) :
    (s.splitOn '@')[0]? = some f ∧ (s.splitOn '@')[2]? = some g := by
  rw [decodeFormatString] at h
  generalize s.splitOn '@' = splits at h
  cases h0 : splits[0]? with
  | none => simp only [h0] at h; cases h
  | some f' =>
    cases h1 : splits[1]? with
    | none => simp only [h0, h1] at h; cases h
    | some l' =>
      cases hl : parseU32 l' with
      | none => simp only [h0, h1, hl, okOr, Bind.bind, Except.bind] at h; cases h
      | some n =>
        cases h2 : splits[2]? with
        | none => simp only [h0, h1, hl, h2, okOr, Bind.bind, Except.bind] at h; cases h
        | some g' =>
          simp only [h0, h1, hl, h2, okOr, Bind.bind, Except.bind] at h
          cases h
          exact ⟨rfl, rfl⟩

theorem splitOn_ne_of_mem {s : Str} (h : '@' ∈ s) (rest : Str) : ((s ++ rest).splitOn '@')[0]? ≠ some s := by
  obtain ⟨before, after, rfl, hbefore⟩ := List.eq_append_cons_of_mem h
  rw [List.append_assoc, List.cons_append, List.splitOn_append_cons_self_of_not_mem hbefore,
    List.getElem?_cons_zero]
  intro heq
  have hlen := congrArg List.length (Option.some.inj heq)
  simp at hlen

theorem decodeFormatString_internedText_iff (hline : line < 2 ^ 32) :
    decodeFormatString (internedText file line fmt) = .ok (file, line, fmt) ↔ '@' ∉ file ∧ '@' ∉ fmt := by
  constructor
  · intro h
    obtain ⟨hfirst, hthird⟩ := pieces_of_decodeFormatString h
    have hfile : '@' ∉ file := fun hmem => splitOn_ne_of_mem hmem _ hfirst
    rw [splitOn_internedText hfile, List.getElem?_cons_succ, List.getElem?_cons_succ] at hthird
    refine ⟨hfile, fun hmem => ?_⟩
    apply splitOn_ne_of_mem hmem []
    rw [List.append_nil, hthird]
  · intro h
    exact decodeFormatString_internedText h.1 hline h.2

theorem zero_notMem_internedText (hfile : '\x00' ∉ file) (hfmt : '\x00' ∉ fmt) :
    0 ∉ Utf8.encode (internedText file line fmt) := by
  have hline : '\x00' ∉ Nat.toDigits 10 line := fun h => absurd (digit_of_mem_line h) (by decide)
  apply Utf8.zero_notMem_encode
  simp [internedText, hfile, hfmt, hline]

end

/-- What the host makes of the string at an offset. -/
def callSiteAt (elf : ElfMetadata) (offset : Nat) : Res (Str × Nat × Str) := do
  let internedString ← elf.recoverInternedString offset
  decodeFormatString internedString

theorem callSiteAt_entry {elf : ElfMetadata} {before after : List Bytes} {file fmt : Str} {line : Nat}
    (hstrings : elf.strings = stringTable (before ++ Utf8.encode (internedText file line fmt) :: after))
    (hfile : '\x00' ∉ file) (hfmt : '\x00' ∉ fmt) :
    callSiteAt elf (stringTable before).length = decodeFormatString (internedText file line fmt) := by
  have hsplit : elf.strings =
      stringTable before ++ (Utf8.encode (internedText file line fmt) ++ 0 :: stringTable after) := by
    rw [hstrings]
    simp [stringTable]
  rw [callSiteAt, recoverInternedString_at hsplit (zero_notMem_internedText hfile hfmt), Utf8.fromUtf8Lossy_encode]
  rfl

/-- **Call-site metadata survives interning**, whatever entries stand around it,
    exactly where neither the file nor the format has an `@`. -/
theorem call_site_survives_iff (elf : ElfMetadata) (before after : List Bytes) (file fmt : Str) (line : Nat)
    (hfile : '\x00' ∉ file) (hfmt : '\x00' ∉ fmt) (hline : line < 2 ^ 32)
    (hstrings : elf.strings = stringTable (before ++ Utf8.encode (internedText file line fmt) :: after)) :
    callSiteAt elf (stringTable before).length = .ok (file, line, fmt) ↔ '@' ∉ file ∧ '@' ∉ fmt := by
  rw [callSiteAt_entry hstrings hfile hfmt]
  exact decodeFormatString_internedText_iff hline

theorem call_site_survives_second : callSiteAt
      ⟨1, stringTable [[255], Utf8.encode (internedText "ä/b.c".toList 12343 "n=%d".toList), []], []⟩ 2 =
    .ok ("ä/b.c".toList, 12343, "n=%d".toList) :=
  (call_site_survives_iff ⟨1, stringTable [[255], Utf8.encode (internedText "ä/b.c".toList 12343 "n=%d".toList), []], []⟩
    [[255]] [[]] "ä/b.c".toList "n=%d".toList 12343 (by decide) (by decide) (by decide) rfl).mpr (by decide)

/-- An `@` in the format ends it. -/
theorem format_with_at_is_cut :
    ¬∀ (elf : ElfMetadata) (before after : List Bytes) (file fmt : Str) (line : Nat), '\x00' ∉ file → '\x00' ∉ fmt →
      line < 2 ^ 32 → elf.strings = stringTable (before ++ Utf8.encode (internedText file line fmt) :: after) →
      callSiteAt elf (stringTable before).length = .ok (file, line, fmt) := by
  intro h
  have hcut := h ⟨1, stringTable [Utf8.encode (internedText "a.c".toList 7 "user@host".toList)], []⟩ [] []
    "a.c".toList "user@host".toList 7 (by decide) (by decide) (by decide) rfl
  have hstrings : (⟨1, stringTable [Utf8.encode (internedText "a.c".toList 7 "user@host".toList)], []⟩ : ElfMetadata).strings =
      stringTable ([] ++ Utf8.encode (internedText "a.c".toList 7 "user@host".toList) :: []) := rfl
  rw [callSiteAt_entry hstrings (by decide) (by decide), decodeFormatString_internedText_iff (by decide)] at hcut
  exact absurd hcut (by decide)

end Postform
