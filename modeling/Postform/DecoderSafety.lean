import Postform.Handlers

/- When `decode` panics. A handler either fails, or takes its argument and
   leaves what follows it, or panics, and which of these depends on the bytes
   it is given: `Kind.argumentEnd` is what it leaves, `Kind.Panics` the inputs
   that kill it. Three places panic: a string pointer past the table, a `%s`
   whose string has no NUL, and a `%` whose byte position is past the last
   character. `decode_panic_iff` collects them for a whole message. -/
namespace Postform.Host

open Wire

section
variable (crates : Crates) (elf : ElfMetadata)

/-- What is left of the arguments when the handler has taken its own, `none`
where it cannot. -/
def Kind.argumentEnd : Kind → Bytes → Option Bytes
  | .str, b =>
    if 0 ∈ b ∧ (Utf8.fromUtf8 (b.take (b.idxOf 0))).isSome then some (b.drop (b.idxOf 0 + 1)) else none
  | .signed, b => (crates.readSigned b).map Prod.snd
  | .unsigned, b | .octal, b | .hex, b | .pointer, b => (crates.readUnsigned b).map Prod.snd
  | .interned, b => (crates.readUnsigned b).bind fun r => if 0 ∈ elf.strings.drop r.1 then some r.2 else none
  | .percent, b => some b
  | .char, b => (crates.readUnsigned b).bind fun r => if (r.1 % 2 ^ 32).isValidChar then some r.2 else none

/-- The arguments the handler panics on. -/
def Kind.Panics : Kind → Bytes → Prop
  | .str, b => 0 ∉ b ∧ (Utf8.fromUtf8 b).isSome
  | .interned, b => ∃ r, crates.readUnsigned b = some r ∧ elf.strings.length < r.1
  | _, _ => False

theorem take_idxOf_of_notMem {b : Bytes} (h : 0 ∉ b) : b.take (b.idxOf 0) = b := by
  rw [List.idxOf_eq_length h, List.take_length]

theorem recoverInternedString_panic_iff (ptr : Nat) :
    elf.recoverInternedString ptr = .error .panic ↔ elf.strings.length < ptr := by
  rw [recoverInternedString_eq]
  by_cases h1 : elf.strings.length < ptr
  · simp [h1]
  · by_cases h2 : 0 ∈ elf.strings.drop ptr <;> simp [h1, h2]

theorem recoverInternedString_ok_iff (ptr : Nat) :
    (∃ str, elf.recoverInternedString ptr = .ok str) ↔ 0 ∈ elf.strings.drop ptr := by
  rw [recoverInternedString_eq]
  by_cases h1 : elf.strings.length < ptr
  · simp [h1, List.drop_eq_nil_of_le (Nat.le_of_lt h1)]
  · by_cases h2 : 0 ∈ elf.strings.drop ptr <;> simp [h1, h2]

theorem handler_panic_iff (k : Kind) (out : Str) (b : Bytes) :
    k.handler crates elf out b = .error .panic ↔ k.Panics crates elf b := by
  have number (render : Nat → Str) : formatNumber crates render out b ≠ .error .panic := by
    rw [formatNumber_eq]
    cases crates.readUnsigned b <;> simp
  cases k with
  | str =>
    simp only [Kind.handler, formatStr_eq, Kind.Panics]
    by_cases h : 0 ∈ b
    · cases Utf8.fromUtf8 (b.take (b.idxOf 0)) <;> simp [h]
    · rw [take_idxOf_of_notMem h]
      cases Utf8.fromUtf8 b <;> simp [h]
  | signed =>
    simp only [Kind.handler, formatSigned_eq, Kind.Panics]
    cases crates.readSigned b <;> simp
  | unsigned => exact iff_of_false (number _) id
  | octal => exact iff_of_false (number _) id
  | hex => exact iff_of_false (number _) id
  | pointer => exact iff_of_false (number fun n => '0' :: 'x' :: Nat.toDigits 16 n) id
  | interned =>
    simp only [Kind.handler, formatInterned_eq, Kind.Panics]
    cases crates.readUnsigned b with
    | none => simp
    | some r =>
      simp only [Option.some.injEq, exists_eq_left', ← recoverInternedString_panic_iff]
      cases elf.recoverInternedString r.1 <;> simp
  | percent => exact iff_of_false (by simp [Kind.handler, formatPercent, Pure.pure, Except.pure]) id
  | char =>
    simp only [Kind.handler, formatChar_eq, Kind.Panics]
    cases crates.readUnsigned b with
    | none => simp
    | some r => by_cases h : (r.1 % 2 ^ 32).isValidChar <;> simp only [h, if_true, if_false] <;> simp

theorem handler_ok_iff (k : Kind) (out : Str) (b rest : Bytes) :
    (∃ out', k.handler crates elf out b = .ok (out', rest)) ↔ k.argumentEnd crates elf b = some rest := by
  have number (render : Nat → Str) : (∃ out', formatNumber crates render out b = .ok (out', rest)) ↔
      (crates.readUnsigned b).map Prod.snd = some rest := by
    rw [formatNumber_eq]
    cases crates.readUnsigned b <;> simp
  cases k with
  | str =>
    simp only [Kind.handler, formatStr_eq, Kind.argumentEnd]
    by_cases h : 0 ∈ b <;> cases Utf8.fromUtf8 (b.take (b.idxOf 0)) <;> simp [h]
  | signed =>
    simp only [Kind.handler, formatSigned_eq, Kind.argumentEnd]
    cases crates.readSigned b <;> simp
  | unsigned => exact number _
  | octal => exact number _
  | hex => exact number _
  | pointer => exact number fun n => '0' :: 'x' :: Nat.toDigits 16 n
  | interned =>
    simp only [Kind.handler, formatInterned_eq, Kind.argumentEnd]
    cases crates.readUnsigned b with
    | none => simp
    | some r =>
      have hentry := recoverInternedString_ok_iff elf r.1
      cases hstr : elf.recoverInternedString r.1 with
      | error exit =>
        have hnone : 0 ∉ elf.strings.drop r.1 := by
          rw [← hentry, hstr]
          simp
        simp [hstr, hnone]
      | ok str => simp [hstr, hentry.mp ⟨str, hstr⟩]
  | percent => simp [Kind.handler, formatPercent, Pure.pure, Except.pure, Kind.argumentEnd]
  | char =>
    simp only [Kind.handler, formatChar_eq, Kind.argumentEnd]
    cases crates.readUnsigned b with
    | none => simp
    | some r =>
      simp only [Option.bind_some]
      by_cases h : (r.1 % 2 ^ 32).isValidChar <;> simp only [h, if_true, if_false] <;> simp

theorem argumentEnd_ok {k : Kind} {out : Str} {b : Bytes} {r : Str × Bytes} (h : k.handler crates elf out b = .ok r) :
    k.argumentEnd crates elf b = some r.2 := (handler_ok_iff crates elf k out b r.2).mp ⟨r.1, h⟩

theorem argumentEnd_error {k : Kind} {out : Str} {b : Bytes} {exit : Exit}
    (h : k.handler crates elf out b = .error exit) : k.argumentEnd crates elf b = none := by
  rw [Option.eq_none_iff_forall_ne_some]
  intro rest hrest
  obtain ⟨out', hok⟩ := (handler_ok_iff crates elf k out b rest).mpr hrest
  rw [h] at hok
  cases hok

/-- What is left of the arguments when the handlers of the tokens have all
taken theirs. -/
def argumentsAfter : List Token → Bytes → Option Bytes
  | [], b => some b
  | t :: tokens, b => (t.kind.argumentEnd crates elf b).bind (argumentsAfter tokens)

/-- The handlers before one of the tokens pass, and its own panics. -/
def ReachesPanic (tokens : List Token) (arguments : Bytes) : Prop :=
  ∃ before t after b, tokens = before ++ t :: after ∧
    argumentsAfter crates elf before arguments = some b ∧ t.kind.Panics crates elf b

theorem reachesPanic_cons (t : Token) (tokens : List Token) (arguments : Bytes) :
    ReachesPanic crates elf (t :: tokens) arguments ↔ t.kind.Panics crates elf arguments ∨
      ∃ b, t.kind.argumentEnd crates elf arguments = some b ∧ ReachesPanic crates elf tokens b := by
  constructor
  · intro hex
    obtain ⟨before, t', after, b, heq, hb, hp⟩ := hex
    cases before with
    | nil =>
      simp only [List.nil_append, List.cons.injEq] at heq
      simp only [argumentsAfter, Option.some.injEq] at hb
      obtain ⟨rfl, rfl⟩ := heq
      subst hb
      exact .inl hp
    | cons t0 before =>
      simp only [List.cons_append, List.cons.injEq] at heq
      obtain ⟨rfl, rfl⟩ := heq
      obtain ⟨b0, h0, hb⟩ := Option.bind_eq_some_iff.mp hb
      exact .inr ⟨b0, h0, before, t', after, b, rfl, hb, hp⟩
  · intro hcase
    rcases hcase with hp | ⟨b0, h0, before, t', after, b, rfl, hb, hp⟩
    · exact ⟨[], t, tokens, arguments, rfl, rfl, hp⟩
    · exact ⟨t :: before, t', after, b, rfl, by rw [argumentsAfter, h0, Option.bind_some, hb], hp⟩

theorem runTokens_panic_iff (ending : Ending) (tokens : List Token) (out : Str) (arguments : Bytes) :
    (runTokens crates elf ending tokens out arguments).2 = .error .panic ↔
      ReachesPanic crates elf tokens arguments ∨
      (ending = .pastEnd ∧ (argumentsAfter crates elf tokens arguments).isSome) := by
  induction tokens generalizing out arguments with
  | nil => cases ending <;> simp [runTokens, Ending.result, argumentsAfter, ReachesPanic]
  | cons t tokens ih =>
    have hpanic := handler_panic_iff crates elf t.kind (out ++ t.lead) arguments
    rw [runTokens, reachesPanic_cons, ← hpanic, argumentsAfter]
    cases hh : t.kind.handler crates elf (out ++ t.lead) arguments with
    | error exit =>
      -- A handler that fails leaves nothing to the tokens after it.
      simp [argumentEnd_error crates elf hh]
    | ok r =>
      have hend := argumentEnd_ok crates elf hh
      simp only [ih r.1 r.2, hend, Option.bind_some, reduceCtorEq, false_or, Option.some.injEq, exists_eq_left']

/-- A format with these arguments does not panic: no handler that is reached
does, and if all are passed the scan does not end past the last character. -/
def FormatSurvives (format : Str) (arguments : Bytes) : Prop :=
  ¬ReachesPanic crates elf (tokenize format).1 arguments ∧
    ¬((tokenize format).2 = .pastEnd ∧ (argumentsAfter crates elf (tokenize format).1 arguments).isSome)

theorem formatString_panic_iff (format : Str) (arguments : Bytes) :
    formatString crates elf format arguments = .error .panic ↔ ¬FormatSurvives crates elf format arguments := by
  rw [formatString, formatLoop_eq, runTokens_panic_iff, FormatSurvives]
  tauto

/-- What a message must meet: its string pointer is inside the table or at its
end, and the format found there survives the arguments. -/
def Survives (buffer : Bytes) : Prop :=
  ∀ ticks rest ptr arguments, crates.readUnsigned buffer = some (ticks, rest) →
    crates.readUnsigned rest = some (ptr, arguments) →
    ptr ≤ elf.strings.length ∧
    ∀ entry file line format, elf.recoverInternedString ptr = .ok entry →
      decodeFormatString entry = .ok (file, line, format) → FormatSurvives crates elf format arguments

theorem bind_panic {α β : Type} (x : Res α) (f : α → Res β) :
    x >>= f = .error .panic ↔ x = .error .panic ∨ ∃ a, x = .ok a ∧ f a = .error .panic := by
  cases x <;> simp [Bind.bind, Except.bind]

theorem okOr_ok {α : Type} {o : Option α} {e : Error} {a : α} : okOr o e = .ok a ↔ o = some a := by
  cases o <;> simp [okOr]

theorem okOr_ne_panic {α : Type} (o : Option α) (e : Error) : okOr o e ≠ .error .panic := by
  cases o <;> simp [okOr]

theorem decodeFormatString_ne_panic (entry : Str) : decodeFormatString entry ≠ .error .panic := by
  simp [decodeFormatString, bind_panic, okOr_ne_panic, Pure.pure, Except.pure]

theorem decode_panic_iff (buffer : Bytes) :
    decode crates elf buffer = .error .panic ↔
      ∃ ticks rest ptr arguments, crates.readUnsigned buffer = some (ticks, rest) ∧
        crates.readUnsigned rest = some (ptr, arguments) ∧
        (elf.strings.length < ptr ∨ ∃ entry file line format, elf.recoverInternedString ptr = .ok entry ∧
          decodeFormatString entry = .ok (file, line, format) ∧
          ¬FormatSurvives crates elf format arguments) := by
  simp only [decode, decodeUnsigned, bind_panic, okOr_ne_panic, okOr_ok, false_or, Prod.exists,
    recoverInternedString_panic_iff, decodeFormatString_ne_panic, formatString_panic_iff,
    Pure.pure, Except.pure, reduceCtorEq, and_false, exists_false, or_false, exists_and_left]

/-- **The decoder survives** a message exactly when it meets `Survives`. -/
theorem decode_survives_iff (buffer : Bytes) :
    decode crates elf buffer ≠ .error .panic ↔ Survives crates elf buffer := by
  rw [ne_eq, decode_panic_iff]
  constructor
  · intro h ticks rest ptr arguments hticks hptr
    constructor
    · by_contra hlt
      apply h
      exact ⟨ticks, rest, ptr, arguments, hticks, hptr, .inl (by omega)⟩
    · intro entry file line format hentry hformat
      by_contra hf
      apply h
      exact ⟨ticks, rest, ptr, arguments, hticks, hptr, .inr ⟨entry, file, line, format, hentry, hformat, hf⟩⟩
  · intro h hex
    obtain ⟨ticks, rest, ptr, arguments, hticks, hptr, hbad⟩ := hex
    obtain ⟨hle, hf⟩ := h ticks rest ptr arguments hticks hptr
    rcases hbad with hlt | ⟨entry, file, line, format, hentry, hformat, hbad⟩
    · omega
    · exact hbad (hf entry file line format hentry hformat)

end

/-- A pointer one past an empty table kills the host. -/
theorem decode_panics_past_table :
    ¬∀ (elf : ElfMetadata) (buffer : Bytes), decode Crates.reference elf buffer ≠ .error .panic := by
  intro h
  refine h ⟨1, [], []⟩ [0, 1] ?_
  rw [decode_panic_iff]
  exact ⟨0, [1], 1, [], by decide, by decide, .inl (by decide)⟩

end Postform.Host
