import Postform.Decoder
import Postform.FormatValidator

/- `format_string` as a scan and a run. Which entries of the table the loop
   meets depends on the format alone: `tokenize` cuts a format into the entries,
   each with the text before it, and how the search ends. `runTokens` then runs
   their handlers over the arguments; the loop does the two at once
   (`formatLoop_eq`).

   On an ASCII format the scan is the validator's grammar read again: a token
   for every `%%` and every conversion, as far as the table has one
   (`tokenize_text`). The only conversions it has not are those of `%i`. -/
namespace Postform.Host

open Wire

/-- What an entry of `FORMAT_SPEC_TABLE` does. -/
inductive Kind where
  | str | signed | unsigned | octal | hex | pointer | interned | percent | char
  deriving DecidableEq, Repr

/-- The table without its handlers. -/
def specKinds : List (Str × Kind) :=
  [("%s".toList, .str),
   ("%hhd".toList, .signed), ("%hd".toList, .signed), ("%d".toList, .signed), ("%ld".toList, .signed),
   ("%lld".toList, .signed),
   ("%hhu".toList, .unsigned), ("%hu".toList, .unsigned), ("%u".toList, .unsigned),
   ("%lu".toList, .unsigned), ("%llu".toList, .unsigned),
   ("%hho".toList, .octal), ("%ho".toList, .octal), ("%o".toList, .octal), ("%lo".toList, .octal),
   ("%llo".toList, .octal),
   ("%hhx".toList, .hex), ("%hx".toList, .hex), ("%x".toList, .hex), ("%lx".toList, .hex),
   ("%llx".toList, .hex),
   ("%p".toList, .pointer), ("%k".toList, .interned), ("%%".toList, .percent), ("%c".toList, .char)]

def findKind (format : Str) : Option (Str × Kind) := specKinds.find? fun entry => entry.1.isPrefixOf format

/-- An entry the scan meets, with the text before it. -/
structure Token where
  lead : Str
  spec : Str
  kind : Kind
  deriving DecidableEq, Repr

/-- How the scan ends: in text, at a `%` with no entry, or at a `%` whose byte
position lies past the last character. -/
inductive Ending where
  | text (rest : Str)
  | unknown (c : Char)
  | pastEnd
  deriving DecidableEq, Repr

theorem findKind_spec {format : Str} {entry : Str × Kind} (h : findKind format = some entry) :
    entry.1 <+: format ∧ 2 ≤ Utf8.size entry.1 := by
  have hmem := List.mem_of_find?_eq_some h
  have hp : entry.1 <+: format := List.isPrefixOf_iff_prefix.mp
    (List.find?_some (p := fun entry : Str × Kind => entry.1.isPrefixOf format) h)
  have all : ∀ spec ∈ specKinds.map Prod.fst, 2 ≤ Utf8.size spec := by decide
  exact ⟨hp, all _ (List.mem_map_of_mem hmem)⟩

def tokenize (format : Str) : List Token × Ending :=
  match findPercent format with
  | none => ([], .text format)
  | some formatSpecPos =>
    match _hrest : format.drop formatSpecPos with
    | [] => ([], .pastEnd)
    | c :: rest =>
      match _hfind : findKind (c :: rest) with
      | none => ([], .unknown c)
      | some (formatSpec, kind) =>
        let (tokens, ending) := tokenize ((c :: rest).drop (Utf8.size formatSpec))
        (⟨format.take formatSpecPos, formatSpec, kind⟩ :: tokens, ending)
termination_by format.length
decreasing_by
  have hlen : (format.drop formatSpecPos).length = (c :: rest).length := by rw [_hrest]
  have hsize := (findKind_spec _hfind).2
  simp only [List.length_drop, List.length_cons] at hlen hsize ⊢
  omega

section
variable (crates : Crates) (elf : ElfMetadata)

/-- The handler of the entries of a kind. -/
def Kind.handler : Kind → FormatSpecHandler
  | .str => formatStr
  | .signed => formatSigned crates
  | .unsigned => formatUnsigned crates
  | .octal => formatOctal crates
  | .hex => formatHex crates
  | .pointer => formatPointer crates
  | .interned => formatInterned crates elf
  | .percent => formatPercent
  | .char => formatChar crates

/-- What `format_string` returns where the scan ends. -/
def Ending.result (out : Str) : Ending → Res Str
  | .text rest => .ok (out ++ rest)
  | .unknown c => .error (.err (.invalidFormatSpecifier c))
  | .pastEnd => .error .panic

/-- The handlers of the tokens, one after the other, until one fails. -/
def runTokens (ending : Ending) : List Token → Str → Bytes → List Str × Res Str
  | [], out, _ => ([], ending.result out)
  | t :: tokens, out, arguments =>
    match t.kind.handler crates elf (out ++ t.lead) arguments with
    | .error exit => ([t.spec], .error exit)
    | .ok (out, arguments) =>
      let (selected, result) := runTokens ending tokens out arguments
      (t.spec :: selected, result)

theorem formatSpecTable_eq :
    formatSpecTable crates elf = specKinds.map fun entry => (entry.1, entry.2.handler crates elf) := rfl

theorem findSpec_eq (format : Str) : findSpec crates elf format =
    (findKind format).map fun entry => (entry.1, entry.2.handler crates elf) := by
  rw [findSpec, formatSpecTable_eq, List.find?_map]
  rfl

/-! One turn of the scan and of the loop. -/

theorem tokenize_turn {format : Str} {pos : Nat} {c : Char} {rest : Str}
    (hpos : findPercent format = some pos) (hrest : format.drop pos = c :: rest) :
    tokenize format = match findKind (c :: rest) with
      | none => ([], .unknown c)
      | some (spec, kind) =>
        let (tokens, ending) := tokenize ((c :: rest).drop (Utf8.size spec))
        (⟨format.take pos, spec, kind⟩ :: tokens, ending) := by
  rw [tokenize]
  simp only [hpos]
  split
  · next h => rw [hrest] at h; cases h
  · next c' rest' h =>
    rw [hrest, List.cons.injEq] at h
    obtain ⟨rfl, rfl⟩ := h
    split
    · next h => simp only [h]
    · next h => simp only [h]

theorem formatLoop_turn {format : Str} {pos : Nat} {c : Char} {rest : Str}
    (hpos : findPercent format = some pos) (hrest : format.drop pos = c :: rest) (out : Str)
    (arguments : Bytes) :
    formatLoop crates elf format out arguments = match findSpec crates elf (c :: rest) with
      | none => ([], .error (.err (.invalidFormatSpecifier c)))
      | some (spec, handler) =>
        match handler (out ++ format.take pos) arguments with
        | .error exit => ([spec], .error exit)
        | .ok (out, arguments) =>
          let (selected, result) := formatLoop crates elf ((c :: rest).drop (Utf8.size spec)) out arguments
          (spec :: selected, result) := by
  rw [formatLoop]
  simp only [hpos]
  split
  · next h => rw [hrest] at h; cases h
  · next c' rest' h =>
    rw [hrest, List.cons.injEq] at h
    obtain ⟨rfl, rfl⟩ := h
    split
    · next h => simp only [h]
    · next spec handler h =>
      cases hrun : handler (out ++ format.take pos) arguments with
      | error exit => simp only [h, hrun]
      | ok r => simp only [h, hrun]

/-- **The loop is the scan and the run.** -/
theorem formatLoop_eq (format out : Str) (arguments : Bytes) :
    formatLoop crates elf format out arguments =
      runTokens crates elf (tokenize format).2 (tokenize format).1 out arguments := by
  induction format using tokenize.induct generalizing out arguments with
  | case1 format hpos =>
    rw [formatLoop, tokenize]
    simp only [hpos, runTokens, Ending.result]
  | case2 format pos hpos hrest =>
    have hloop : formatLoop crates elf format out arguments = ([], .error .panic) := by
      rw [formatLoop]
      simp only [hpos]
      split
      · rfl
      · next h => rw [hrest] at h; cases h
    have hscan : tokenize format = ([], .pastEnd) := by
      rw [tokenize]
      simp only [hpos]
      split
      · rfl
      · next h => rw [hrest] at h; cases h
    rw [hloop, hscan]
    rfl
  | case3 format pos hpos c rest hrest hfind =>
    rw [formatLoop_turn crates elf hpos hrest, tokenize_turn hpos hrest, findSpec_eq, hfind]
    rfl
  | case4 format pos hpos c rest hrest spec kind hfind _ _ _ ih =>
    rw [formatLoop_turn crates elf hpos hrest, tokenize_turn hpos hrest, findSpec_eq, hfind]
    simp only [Option.map_some, runTokens, ih]

end

/-! The scan of an ASCII format. -/

/-- The kind of the entry for a conversion; `%i` has none. -/
def convKind : Conv → Option Kind
  | .s => some .str
  | .p => some .pointer
  | .k => some .interned
  | .c => some .char
  | .int _ .d => some .signed
  | .int _ .i => none
  | .int _ .u => some .unsigned
  | .int _ .o => some .octal
  | .int _ .x => some .hex

/-- The spelling of a conversion, with its `%`. -/
def convSpec (cv : Conv) : Str := '%' :: cv.text

/-- The tokens of the pieces of a format, after the text `lead`, up to the
first conversion without an entry. -/
def pieceTokens : Str → List Piece → List Token × Ending
  | lead, [] => ([], .text lead)
  | lead, .lit c _ :: ps => pieceTokens (lead ++ [c]) ps
  | lead, .percent :: ps =>
    let (tokens, ending) := pieceTokens [] ps
    (⟨lead, ['%', '%'], .percent⟩ :: tokens, ending)
  | lead, .conv cv :: ps =>
    match convKind cv with
    | none => ([], .unknown '%')
    | some kind =>
      let (tokens, ending) := pieceTokens [] ps
      (⟨lead, convSpec cv, kind⟩ :: tokens, ending)

theorem findKind_conv (cv : Conv) (rest : Str) :
    findKind (convSpec cv ++ rest) = (convKind cv).map fun kind => (convSpec cv, kind) := by
  cases cv with
  | int size letter => cases size <;> cases letter <;> rfl
  | _ => rfl

theorem convSpec_ascii (cv : Conv) : Utf8.IsAscii (convSpec cv) := by
  cases cv with
  | int size letter => cases size <;> cases letter <;> decide
  | _ => decide

theorem findPercent_lead {lead : Str} (h : '%' ∉ lead) (rest : Str) :
    findPercent (lead ++ '%' :: rest) = some (Utf8.size lead) := by
  induction lead with
  | nil => rfl
  | cons c lead ih =>
    rw [List.mem_cons, not_or] at h
    rw [List.cons_append, findPercent, if_neg (Ne.symm h.1), ih h.2]
    simp [Utf8.size]

theorem findPercent_none {lead : Str} (h : '%' ∉ lead) : findPercent lead = none := by
  induction lead with
  | nil => rfl
  | cons c lead ih =>
    rw [List.mem_cons, not_or] at h
    rw [findPercent, if_neg (Ne.symm h.1), ih h.2, Option.map_none]

theorem tokenize_lead {lead : Str} (hl : '%' ∉ lead) (ha : Utf8.IsAscii lead) (rest : Str) :
    tokenize (lead ++ '%' :: rest) = match findKind ('%' :: rest) with
      | none => ([], .unknown '%')
      | some (spec, kind) =>
        let (tokens, ending) := tokenize (('%' :: rest).drop (Utf8.size spec))
        (⟨lead, spec, kind⟩ :: tokens, ending) := by
  have hpos := findPercent_lead hl rest
  rw [Utf8.size_ascii ha] at hpos
  rw [tokenize_turn hpos (List.drop_left ..), List.take_left]

theorem tokenize_text : ∀ (ps : List Piece) (lead : Str), '%' ∉ lead → Utf8.IsAscii lead →
    Utf8.IsAscii (text ps) → tokenize (lead ++ text ps) = pieceTokens lead ps
  | [], lead, hl, _, _ => by
    rw [text_nil, List.append_nil, tokenize, findPercent_none hl]
    rfl
  | .lit c hc :: ps, lead, hl, ha, hps => by
    have ih := tokenize_text ps (lead ++ [c]) (by simp [hl, Ne.symm hc])
      (fun x hx => by
        rcases List.mem_append.mp hx with h | h
        · exact ha x h
        · exact hps x (by simp [Piece.text, List.mem_singleton.mp h]))
      (fun x hx => hps x (List.mem_append_right _ hx))
    rw [pieceTokens, ← ih, List.append_assoc]
    rfl
  | .percent :: ps, lead, hl, ha, hps => by
    have ih := tokenize_text ps [] (by simp) (by simp [Utf8.IsAscii])
      (fun x hx => hps x (List.mem_append_right _ hx))
    rw [pieceTokens, ← ih]
    exact tokenize_lead hl ha ('%' :: text ps)
  | .conv cv :: ps, lead, hl, ha, hps => by
    have ih := tokenize_text ps [] (by simp) (by simp [Utf8.IsAscii])
      (fun x hx => hps x (List.mem_append_right _ hx))
    have hfind := findKind_conv cv (text ps)
    have hsize := Utf8.size_ascii (convSpec_ascii cv)
    rw [pieceTokens, ← ih]
    apply (tokenize_lead hl ha (cv.text ++ text ps)).trans
    rw [show '%' :: (cv.text ++ text ps) = convSpec cv ++ text ps from rfl, hfind]
    cases convKind cv with
    | none => rfl
    | some kind => simp only [Option.map_some, hsize, List.drop_left, List.nil_append]

theorem tokenize_ascii {ps : List Piece} (h : Utf8.IsAscii (text ps)) :
    tokenize (text ps) = pieceTokens [] ps := tokenize_text ps [] (by simp) (by simp [Utf8.IsAscii]) h

end Postform.Host
