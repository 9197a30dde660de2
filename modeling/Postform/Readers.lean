import Postform.Reference

/- What a run of handlers depends on. Entries that print a number read it in the
   same way, so a run that ends at an unknown conversion, which shows nothing of
   what was printed, depends on the argument readers of its tokens alone
   (`runTokens_unknown`).

   Arguments can be made to order. `universal` is one that every reader takes
   whole, each to another text, so that a run over copies of it shows every token
   (`runTokens_universal`); and of two different sequences of readers one fails
   where the other does not (`readAll_separates`). -/
namespace Postform.Host

open Wire

/-- A way to take an argument off the buffer. -/
inductive Reader where
  | str | signed | unsigned | interned | char
  deriving DecidableEq, Repr

/-- The reader of an entry; `%%` takes no argument. -/
def Kind.reader : Kind → Option Reader
  | .str => some .str
  | .signed => some .signed
  | .unsigned | .octal | .hex | .pointer => some .unsigned
  | .interned => some .interned
  | .percent => none
  | .char => some .char

/-- An entry with this reader. -/
def Reader.kind : Reader → Kind
  | .str => .str
  | .signed => .signed
  | .unsigned => .unsigned
  | .interned => .interned
  | .char => .char

/-- The argument readers of the tokens, in order. -/
def readers (tokens : List Token) : List Reader := tokens.filterMap fun t => t.kind.reader

section
variable (crates : Crates) (elf : ElfMetadata)

/-- What a reader leaves of the arguments. -/
def Reader.read (r : Reader) (arguments : Bytes) : Res Bytes :=
  (r.kind.handler crates elf [] arguments).map Prod.snd

/-- How a run of readers leaves that ends at an unknown conversion. -/
def readAll (c : Char) : List Reader → Bytes → Exit
  | [], _ => .err (.invalidFormatSpecifier c)
  | r :: rest, arguments =>
    match r.read crates elf arguments with
    | .error exit => exit
    | .ok arguments => readAll c rest arguments

theorem handler_percent (out : Str) (arguments : Bytes) :
    Kind.percent.handler crates elf out arguments = .ok (out ++ ['%'], arguments) := rfl

theorem read_str (b : Bytes) : Reader.str.read crates elf b = match Utf8.fromUtf8 (b.take (b.idxOf 0)) with
    | none => .error (.err .missingLogArgument)
    | some _ => if 0 ∈ b then .ok (b.drop (b.idxOf 0 + 1)) else .error .panic := by
  simp only [Reader.read, Reader.kind, Kind.handler, formatStr_eq]
  cases Utf8.fromUtf8 (b.take (b.idxOf 0)) with
  | none => rfl
  | some res => by_cases hz : 0 ∈ b <;> simp only [hz, if_true, if_false] <;> rfl

theorem read_signed (b : Bytes) : Reader.signed.read crates elf b = match crates.readSigned b with
    | none => .error (.err .invalidLogMessage)
    | some r => .ok r.2 := by
  simp only [Reader.read, Reader.kind, Kind.handler, formatSigned_eq]
  cases crates.readSigned b <;> rfl

theorem read_unsigned (b : Bytes) : Reader.unsigned.read crates elf b = match crates.readUnsigned b with
    | none => .error (.err .invalidLogMessage)
    | some r => .ok r.2 := by
  simp only [Reader.read, Reader.kind, Kind.handler, formatUnsigned, formatNumber_eq]
  cases crates.readUnsigned b <;> rfl

theorem read_interned (b : Bytes) : Reader.interned.read crates elf b = match crates.readUnsigned b with
    | none => .error (.err .invalidLogMessage)
    | some r => (elf.recoverInternedString r.1).map fun _ => r.2 := by
  simp only [Reader.read, Reader.kind, Kind.handler, formatInterned_eq]
  cases crates.readUnsigned b with
  | none => rfl
  | some r =>
    simp only
    cases elf.recoverInternedString r.1 <;> rfl

theorem read_char (b : Bytes) : Reader.char.read crates elf b = match crates.readUnsigned b with
    | none => .error (.err .invalidLogMessage)
    | some r => if (r.1 % 2 ^ 32).isValidChar then .ok r.2 else .error (.err .invalidLogMessage) := by
  simp only [Reader.read, Reader.kind, Kind.handler, formatChar_eq]
  cases crates.readUnsigned b with
  | none => rfl
  | some r => by_cases hv : (r.1 % 2 ^ 32).isValidChar <;> simp only [hv, if_true, if_false] <;> rfl

theorem read_none {r : Reader} (hstr : r ≠ .str) (hsigned : r ≠ .signed) {b : Bytes} (h : crates.readUnsigned b = none) :
    r.read crates elf b = .error (.err .invalidLogMessage) := by
  cases r with
  | str => exact absurd rfl hstr
  | signed => exact absurd rfl hsigned
  | unsigned => rw [read_unsigned, h]
  | interned => rw [read_interned, h]
  | char => rw [read_char, h]

theorem handler_read {k : Kind} {r : Reader} (h : k.reader = some r) (out : Str) (b : Bytes) :
    (k.handler crates elf out b).map Prod.snd = r.read crates elf b := by
  have number (render : Nat → Str) :
      (formatNumber crates render out b).map Prod.snd = Reader.unsigned.read crates elf b := by
    rw [formatNumber_eq, read_unsigned]
    cases crates.readUnsigned b <;> rfl
  cases k with
  | percent => cases h
  | str =>
    cases h
    rw [Kind.handler, formatStr_eq, read_str]
    cases Utf8.fromUtf8 (b.take (b.idxOf 0)) with
    | none => rfl
    | some res => by_cases hz : 0 ∈ b <;> simp only [hz, if_true, if_false] <;> rfl
  | signed =>
    cases h
    rw [Kind.handler, formatSigned_eq, read_signed]
    cases crates.readSigned b <;> rfl
  | interned =>
    cases h
    rw [Kind.handler, formatInterned_eq, read_interned]
    cases crates.readUnsigned b with
    | none => rfl
    | some n =>
      simp only
      cases elf.recoverInternedString n.1 <;> rfl
  | char =>
    cases h
    rw [Kind.handler, formatChar_eq, read_char]
    cases crates.readUnsigned b with
    | none => rfl
    | some n => by_cases hv : (n.1 % 2 ^ 32).isValidChar <;> simp only [hv, if_true, if_false] <;> rfl
  | unsigned => cases h; exact number (Nat.toDigits 10)
  | octal => cases h; exact number (Nat.toDigits 8)
  | hex => cases h; exact number (Nat.toDigits 16)
  | pointer => cases h; exact number fun n => '0' :: 'x' :: Nat.toDigits 16 n

/-- **A run to an unknown conversion** is one of its readers. -/
theorem runTokens_unknown (c : Char) (tokens : List Token) (out : Str) (arguments : Bytes) :
    (runTokens crates elf (.unknown c) tokens out arguments).2 =
      .error (readAll crates elf c (readers tokens) arguments) := by
  induction tokens generalizing out arguments with
  | nil => rfl
  | cons t tokens ih =>
    rw [runTokens]
    cases hr : t.kind.reader with
    | none =>
      have hkind : t.kind = .percent := by
        revert hr
        cases t.kind <;> simp [Kind.reader]
      have hreaders : readers (t :: tokens) = readers tokens := List.filterMap_cons_none hr
      rw [hkind, hreaders, ← ih (out ++ t.lead ++ ['%']) arguments, handler_percent]
    | some r =>
      have hreaders : readers (t :: tokens) = r :: readers tokens := List.filterMap_cons_some hr
      rw [hreaders, readAll, ← handler_read crates elf hr (out ++ t.lead) arguments]
      cases hrun : t.kind.handler crates elf (out ++ t.lead) arguments with
      | error exit => rfl
      | ok left => exact ih left.1 left.2

end

/-! An argument for every reader. -/

/-- One LEB128 number, 66, and one string, U+0080. -/
def universal : Bytes := [0xC2, 0x80, 0x00]

theorem isGroup_universal : Leb128.IsGroup universal := ⟨by decide, by decide, (by decide : UInt8.toNat 0 < 128)⟩

/-- A table with an entry at 66. -/
def universalElf : ElfMetadata := ⟨1, List.replicate 67 97 ++ [0], []⟩

/-- What an entry prints for it. -/
def Kind.universalText : Kind → Str
  | .str => [Char.ofNat 0x80]
  | .signed | .unsigned => "66".toList
  | .octal => "102".toList
  | .hex => "42".toList
  | .pointer => "0x42".toList
  | .interned => "a".toList
  | .percent => "%".toList
  | .char => "B".toList

def universalOut (tokens : List Token) : Str := tokens.flatMap fun t => t.lead ++ t.kind.universalText

/-- A number of copies. -/
def universals (n : Nat) : Bytes := (List.replicate n universal).flatten

theorem universals_succ (n : Nat) (more : Bytes) : universals (n + 1) ++ more = universal ++ (universals n ++ more) := by
  rw [universals, List.replicate_succ, List.flatten_cons, List.append_assoc]
  rfl

theorem universals_add (m n : Nat) : universals (m + n) = universals m ++ universals n := by
  rw [universals, List.replicate_add, List.flatten_append]
  rfl

theorem recover_universal : universalElf.recoverInternedString 66 = .ok ['a'] := by
  rw [recoverInternedString_eq]
  decide

section
variable {crates : Crates} (hcrates : crates.Documented)
include hcrates

theorem readUnsigned_group {g : Bytes} (h : Leb128.IsGroup g) (rest : Bytes) :
    crates.readUnsigned (g ++ rest) = (Leb128.readU64 g).map fun r => (r.1, rest) := by
  rw [hcrates.readUnsigned, Leb128.readU64_extent h]

theorem readSigned_group {g : Bytes} (h : Leb128.IsGroup g) (rest : Bytes) :
    crates.readSigned (g ++ rest) = (Leb128.readS64 g).map fun r => (r.1, rest) := by
  rw [hcrates.readSigned, Leb128.readS64_extent h]

theorem readUnsigned_universal (rest : Bytes) : crates.readUnsigned (universal ++ rest) = some (66, rest) := by
  rw [readUnsigned_group hcrates isGroup_universal]
  rfl

theorem handler_universal {k : Kind} {r : Reader} (h : k.reader = some r) (out : Str) (rest : Bytes) :
    k.handler crates universalElf out (universal ++ rest) = .ok (out ++ k.universalText, rest) := by
  have hread := readUnsigned_universal hcrates rest
  cases k with
  | percent => cases h
  | str =>
    have hidx : (universal ++ rest).idxOf 0 = 2 := rfl
    have hmem : 0 ∈ universal ++ rest := List.mem_append_left _ (by decide)
    have htext : Utf8.fromUtf8 ((universal ++ rest).take 2) = some [Char.ofNat 0x80] := by
      rw [show (universal ++ rest).take 2 = [0xC2, 0x80] from rfl]
      decide
    simp only [Kind.handler, formatStr_eq, hidx, htext, if_pos hmem]
    rfl
  | signed =>
    have hsigned : crates.readSigned (universal ++ rest) = some (66, rest) := by
      rw [readSigned_group hcrates isGroup_universal]
      rfl
    simp only [Kind.handler, formatSigned_eq, hsigned]
    rfl
  | interned =>
    simp only [Kind.handler, formatInterned_eq, hread, recover_universal]
    rfl
  | char =>
    simp only [Kind.handler, formatChar_eq, hread]
    rfl
  | unsigned => simp only [Kind.handler, formatUnsigned, formatNumber_eq, hread]; rfl
  | octal => simp only [Kind.handler, formatOctal, formatNumber_eq, hread]; rfl
  | hex => simp only [Kind.handler, formatHex, formatNumber_eq, hread]; rfl
  | pointer => simp only [Kind.handler, formatPointer, formatNumber_eq, hread]; rfl

theorem read_universal (r : Reader) (rest : Bytes) : r.read crates universalElf (universal ++ rest) = .ok rest := by
  have hkind : r.kind.reader = some r := by cases r <;> rfl
  rw [Reader.read, handler_universal hcrates hkind]
  rfl

/-- **A run over copies** of it shows every token. -/
theorem runTokens_universal (ending : Ending) (tokens : List Token) (out : Str) (more : Bytes) :
    (runTokens crates universalElf ending tokens out (universals (readers tokens).length ++ more)).2 =
      ending.result (out ++ universalOut tokens) := by
  induction tokens generalizing out more with
  | nil => rw [runTokens, universalOut, List.flatMap_nil, List.append_nil]
  | cons t tokens ih =>
    have hout : out ++ universalOut (t :: tokens) =
        out ++ t.lead ++ t.kind.universalText ++ universalOut tokens := by
      simp only [universalOut, List.flatMap_cons, List.append_assoc]
    rw [runTokens]
    cases hr : t.kind.reader with
    | none =>
      have hkind : t.kind = .percent := by
        revert hr
        cases t.kind <;> simp [Kind.reader]
      have hreaders : readers (t :: tokens) = readers tokens := List.filterMap_cons_none hr
      rw [hout, hreaders, ← ih _ more, hkind, handler_percent]
      rfl
    | some r =>
      have hreaders : readers (t :: tokens) = r :: readers tokens := List.filterMap_cons_some hr
      rw [hout, hreaders, List.length_cons, universals_succ, handler_universal hcrates hr, ← ih _ more]

theorem not_reachesPanic_universal (tokens : List Token) (more : Bytes) :
    ¬ReachesPanic crates universalElf tokens (universals (readers tokens).length ++ more) := by
  intro h
  have hpanic := (runTokens_panic_iff crates universalElf (.text []) tokens []
    (universals (readers tokens).length ++ more)).mpr (.inl h)
  rw [runTokens_universal hcrates] at hpanic
  cases hpanic

/-! Arguments that tell readers apart. -/

/-- The first fails with an error on `probe`, which the second takes whole. -/
def Reader.FailsAt (crates : Crates) (x y : Reader) (probe : Bytes) : Prop := ∃ error, ∀ rest,
  x.read crates universalElf (probe ++ rest) = .error (.err error) ∧ y.read crates universalElf (probe ++ rest) = .ok rest

theorem str_failsAt {y : Reader} (hy : y ≠ .str) : Reader.str.FailsAt crates y [0xC2, 0x00] := by
  have hgroup : Leb128.IsGroup [0xC2, 0x00] := ⟨by decide, (by decide : UInt8.toNat 0 < 128)⟩
  refine ⟨.missingLogArgument, fun rest => ⟨?_, ?_⟩⟩
  · have hidx : ([0xC2, 0x00] ++ rest : Bytes).idxOf 0 = 1 := rfl
    have htext : Utf8.fromUtf8 (([0xC2, 0x00] ++ rest : Bytes).take 1) = none := by
      rw [show ([0xC2, 0x00] ++ rest : Bytes).take 1 = [0xC2] from rfl]
      decide
    rw [read_str, hidx, htext]
  · have hread : crates.readUnsigned ([0xC2, 0x00] ++ rest) = some (66, rest) := readUnsigned_group hcrates hgroup rest
    have hsigned : crates.readSigned ([0xC2, 0x00] ++ rest) = some (66, rest) := readSigned_group hcrates hgroup rest
    cases y with
    | str => exact absurd rfl hy
    | signed => rw [read_signed, hsigned]
    | unsigned => rw [read_unsigned, hread]
    | interned =>
      rw [read_interned, hread]
      simp only [recover_universal]
      rfl
    | char =>
      rw [read_char, hread]
      rfl

/-- A number that is one of 64 bits only with its sign. -/
theorem failsAt_signed {x : Reader} (hstr : x ≠ .str) (hsigned : x ≠ .signed) :
    x.FailsAt crates .signed (List.replicate 9 0x80 ++ [0x7F]) := by
  have hgroup : Leb128.IsGroup (List.replicate 9 0x80 ++ [0x7F]) := by
    simp only [List.replicate, List.cons_append, List.nil_append, Leb128.IsGroup]
    decide
  refine ⟨.invalidLogMessage, fun rest => ⟨?_, ?_⟩⟩
  · have hread : crates.readUnsigned (List.replicate 9 0x80 ++ [0x7F] ++ rest) = none := by
      rw [readUnsigned_group hcrates hgroup]
      rfl
    exact read_none crates universalElf hstr hsigned hread
  · have hread : crates.readSigned (List.replicate 9 0x80 ++ [0x7F] ++ rest) = some (-2 ^ 63, rest) := by
      rw [readSigned_group hcrates hgroup]
      rfl
    rw [read_signed, hread]

theorem interned_failsAt {y : Reader} (hy : y = .unsigned ∨ y = .char) : Reader.interned.FailsAt crates y [0x44] := by
  have hgroup : Leb128.IsGroup [0x44] := (by decide : UInt8.toNat 0x44 < 128)
  refine ⟨.invalidFormatString, fun rest => ?_⟩
  have hread : crates.readUnsigned ([0x44] ++ rest) = some (68, rest) := readUnsigned_group hcrates hgroup rest
  have hentry : universalElf.recoverInternedString 68 = .error (.err .invalidFormatString) := by
    rw [recoverInternedString_eq]
    decide
  constructor
  · rw [read_interned, hread]
    simp only [hentry]
    rfl
  · rcases hy with rfl | rfl
    · rw [read_unsigned, hread]
    · rw [read_char, hread]
      rfl

theorem char_failsAt : Reader.char.FailsAt crates .unsigned [0x80, 0xB0, 0x03] := by
  have hgroup : Leb128.IsGroup [0x80, 0xB0, 0x03] := ⟨by decide, by decide, (by decide : UInt8.toNat 3 < 128)⟩
  refine ⟨.invalidLogMessage, fun rest => ?_⟩
  have hread : crates.readUnsigned ([0x80, 0xB0, 0x03] ++ rest) = some (0xD800, rest) :=
    readUnsigned_group hcrates hgroup rest
  constructor
  · have hsurrogate : ¬(0xD800 % 2 ^ 32 : Nat).isValidChar := by decide
    rw [read_char, hread]
    exact if_neg hsurrogate
  · rw [read_unsigned, hread]

theorem exists_probe {x y : Reader} (h : x ≠ y) : ∃ probe, x.FailsAt crates y probe ∨ y.FailsAt crates x probe := by
  cases x with
  | str => exact ⟨_, .inl (str_failsAt hcrates (Ne.symm h))⟩
  | signed =>
    cases y with
    | str => exact ⟨_, .inr (str_failsAt hcrates h)⟩
    | signed => exact absurd rfl h
    | _ => exact ⟨_, .inr (failsAt_signed hcrates (by decide) (by decide))⟩
  | unsigned =>
    cases y with
    | str => exact ⟨_, .inr (str_failsAt hcrates h)⟩
    | signed => exact ⟨_, .inl (failsAt_signed hcrates (by decide) (by decide))⟩
    | unsigned => exact absurd rfl h
    | interned => exact ⟨_, .inr (interned_failsAt hcrates (.inl rfl))⟩
    | char => exact ⟨_, .inr (char_failsAt hcrates)⟩
  | interned =>
    cases y with
    | str => exact ⟨_, .inr (str_failsAt hcrates h)⟩
    | signed => exact ⟨_, .inl (failsAt_signed hcrates (by decide) (by decide))⟩
    | unsigned => exact ⟨_, .inl (interned_failsAt hcrates (.inl rfl))⟩
    | interned => exact absurd rfl h
    | char => exact ⟨_, .inl (interned_failsAt hcrates (.inr rfl))⟩
  | char =>
    cases y with
    | str => exact ⟨_, .inr (str_failsAt hcrates h)⟩
    | signed => exact ⟨_, .inl (failsAt_signed hcrates (by decide) (by decide))⟩
    | unsigned => exact ⟨_, .inl (char_failsAt hcrates)⟩
    | interned => exact ⟨_, .inr (interned_failsAt hcrates (.inr rfl))⟩
    | char => exact absurd rfl h

theorem read_unfinished (r : Reader) : ∃ error, r.read crates universalElf [0x80] = .error (.err error) := by
  have hread : crates.readUnsigned [0x80] = none := by rw [hcrates.readUnsigned]; rfl
  have hsigned : crates.readSigned [0x80] = none := by rw [hcrates.readSigned]; rfl
  by_cases hstr : r = .str
  · subst hstr
    exact ⟨.missingLogArgument, read_str crates universalElf [0x80]⟩
  by_cases hr : r = .signed
  · subst hr
    exact ⟨.invalidLogMessage, by rw [read_signed, hsigned]⟩
  exact ⟨.invalidLogMessage, read_none crates universalElf hstr hr hread⟩

omit hcrates in
theorem read_ne_invalidFormatSpecifier {r : Reader} {arguments : Bytes} {error : Error}
    (h : r.read crates universalElf arguments = .error (.err error)) (c : Char) : error ≠ .invalidFormatSpecifier c := by
  intro heq
  rw [heq, Reader.read] at h
  have hhandler := handler_ne_invalidFormatSpecifier crates universalElf r.kind [] arguments c
  cases hrun : r.kind.handler crates universalElf [] arguments with
  | ok left => rw [hrun] at h; cases h
  | error exit =>
    rw [hrun] at h
    cases h
    exact hhandler hrun

theorem readAll_universals (c : Char) : ∀ {rs : List Reader} {n : Nat}, rs.length ≤ n →
    readAll crates universalElf c rs (universals n) = .err (.invalidFormatSpecifier c)
  | [], _, _ => rfl
  | r :: rs, 0, h => absurd h (Nat.not_succ_le_zero _)
  | r :: rs, n + 1, h => by
    have hread := read_universal hcrates r (universals n)
    have hsucc := universals_succ n []
    rw [List.append_nil, List.append_nil] at hsucc
    rw [readAll, hsucc, hread]
    exact readAll_universals c (Nat.le_of_succ_le_succ h)

/-- Two ways to leave, neither a panic. -/
def Apart (a b : Exit) : Prop := a ≠ b ∧ a ≠ .panic ∧ b ≠ .panic

theorem readAll_probe (c : Char) {x y : Reader} {probe : Bytes} (h : x.FailsAt crates y probe) (rs rs' : List Reader) :
    Apart (readAll crates universalElf c (x :: rs) (probe ++ universals rs'.length))
      (readAll crates universalElf c (y :: rs') (probe ++ universals rs'.length)) := by
  obtain ⟨error, hprobe⟩ := h
  obtain ⟨hfail, hpass⟩ := hprobe (universals rs'.length)
  have hne := read_ne_invalidFormatSpecifier hfail c
  simp only [readAll, hfail, hpass, readAll_universals hcrates c (Nat.le_refl rs'.length)]
  exact ⟨by simpa using hne, by simp, by simp⟩

/-- **Different readers** leave in different ways on some arguments. -/
theorem readAll_separates (c : Char) : ∀ {rs rs' : List Reader}, rs ≠ rs' → ∃ arguments,
    Apart (readAll crates universalElf c rs arguments) (readAll crates universalElf c rs' arguments)
  | [], [], h => absurd rfl h
  | [], y :: rs', _ => by
    obtain ⟨error, hfail⟩ := read_unfinished hcrates y
    have hne := read_ne_invalidFormatSpecifier hfail c
    refine ⟨[0x80], ?_⟩
    simp only [readAll, hfail]
    exact ⟨by simpa using Ne.symm hne, by simp, by simp⟩
  | x :: rs, [], _ => by
    obtain ⟨error, hfail⟩ := read_unfinished hcrates x
    have hne := read_ne_invalidFormatSpecifier hfail c
    refine ⟨[0x80], ?_⟩
    simp only [readAll, hfail]
    exact ⟨by simpa using hne, by simp, by simp⟩
  | x :: rs, y :: rs', h => by
    by_cases hxy : x = y
    · have hne : rs ≠ rs' := fun heq => h (by rw [hxy, heq])
      obtain ⟨arguments, hapart⟩ := readAll_separates c hne
      refine ⟨universal ++ arguments, ?_⟩
      simp only [readAll, read_universal hcrates]
      exact hapart
    · obtain ⟨probe, hprobe | hprobe⟩ := exists_probe hcrates hxy
      · exact ⟨_, readAll_probe hcrates c hprobe rs rs'⟩
      · have hapart := readAll_probe hcrates c hprobe rs' rs
        exact ⟨_, Ne.symm hapart.1, hapart.2.2, hapart.2.1⟩

end

end Postform.Host
