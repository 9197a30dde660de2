import Postform.IntegerText
import Postform.Reference
import Postform.WriteLeb128

/- Argument alignment. The bytes of an argument carry no tag: `make_arg` chooses
   them by the argument's type, and the host takes them off by the conversion it
   finds. `handlerCalls` is the loop of `format_string` with what each handler is
   given and what it leaves; the two sides agree when the calls are those of the
   conversions, each on its own argument and what follows, of which it leaves what
   follows (`CallsAligned`). A handler whose argument has no text (`Refused`) does not
   return, and ends the loop.

   They do so exactly where the entries that the scan meets are the conversions, and
   no `%p` is given a pointer that converts to `const char*`, which goes out as a
   string. The scan meets the conversions wherever it does not drift. -/
namespace Postform

open Wire Host

namespace Host

/-- A call of a handler: its entry, the arguments it is given, and those it leaves,
`none` where it does not return. -/
structure HandlerCall where
  spec : Str
  given : Bytes
  left : Option Bytes
  deriving DecidableEq, Repr

section
variable (crates : Crates) (elf : ElfMetadata)

/-- The calls of handlers that `formatLoop` makes. -/
def handlerCalls (format formattedStr : Str) (arguments : Bytes) : List HandlerCall :=
  match findPercent format with
  | none => []
  | some formatSpecPos =>
    match _hrest : format.drop formatSpecPos with
    | [] => []
    | c :: rest =>
      match _hfind : findSpec crates elf (c :: rest) with
      | none => []
      | some (formatSpec, handler) =>
        match handler (formattedStr ++ format.take formatSpecPos) arguments with
        | .error _ => [⟨formatSpec, arguments, none⟩]
        | .ok (formattedStr, left) =>
          ⟨formatSpec, arguments, some left⟩ ::
            handlerCalls ((c :: rest).drop (Utf8.size formatSpec)) formattedStr left
termination_by format.length
decreasing_by
  have hlen : (format.drop formatSpecPos).length = (c :: rest).length := by rw [_hrest]
  have hsize := (findSpec_spec _hfind).2
  simp only [List.length_drop, List.length_cons] at hlen hsize ⊢
  omega

/-- The calls of the tokens, until one does not return. -/
def tokenCalls : List Token → Bytes → List HandlerCall
  | [], _ => []
  | t :: tokens, arguments =>
    match t.kind.argumentEnd crates elf arguments with
    | none => [⟨t.spec, arguments, none⟩]
    | some left => ⟨t.spec, arguments, some left⟩ :: tokenCalls tokens left

theorem handlerCalls_turn {format : Str} {pos : Nat} {c : Char} {rest : Str}
    (hpos : findPercent format = some pos) (hrest : format.drop pos = c :: rest) (out : Str) (arguments : Bytes) :
    handlerCalls crates elf format out arguments = match findSpec crates elf (c :: rest) with
      | none => []
      | some (spec, handler) =>
        match handler (out ++ format.take pos) arguments with
        | .error _ => [⟨spec, arguments, none⟩]
        | .ok (out, left) =>
          ⟨spec, arguments, some left⟩ :: handlerCalls crates elf ((c :: rest).drop (Utf8.size spec)) out left := by
  rw [handlerCalls]
  simp only [hpos]
  split
  · next h => rw [hrest] at h; cases h
  · next c' rest' h =>
    rw [hrest, List.cons.injEq] at h
    obtain ⟨rfl, rfl⟩ := h
    split
    · next h => simp only [h]
    · next spec handler h =>
      cases hrun : handler (out ++ format.take pos) arguments with
      | error exit => simp only [h, hrun]
      | ok r => simp only [h, hrun]

theorem handlerCalls_eq (format out : Str) (arguments : Bytes) :
    handlerCalls crates elf format out arguments = tokenCalls crates elf (tokenize format).1 arguments := by
  induction format using tokenize.induct generalizing out arguments with
  | case1 format hpos =>
    rw [handlerCalls, tokenize]
    simp only [hpos, tokenCalls]
  | case2 format pos hpos hrest =>
    have hcalls : handlerCalls crates elf format out arguments = [] := by
      rw [handlerCalls]
      simp only [hpos]
      split
      · rfl
      · next h => rw [hrest] at h; cases h
    have hscan : tokenize format = ([], .pastEnd) := by
      rw [tokenize]
      simp only [hpos]
      split
      · rfl
      · next h => rw [hrest] at h; cases h
    rw [hcalls, hscan]
    rfl
  | case3 format pos hpos c rest hrest hfind =>
    rw [handlerCalls_turn crates elf hpos hrest, tokenize_turn hpos hrest, findSpec_eq, hfind]
    rfl
  | case4 format pos hpos c rest hrest spec kind hfind _ _ _ ih =>
    rw [handlerCalls_turn crates elf hpos hrest, tokenize_turn hpos hrest, findSpec_eq, hfind]
    simp only [Option.map_some, tokenCalls, ih]
    cases hrun : kind.handler crates elf (out ++ format.take pos) arguments with
    | error exit => simp only [argumentEnd_error crates elf hrun]
    | ok r => simp only [argumentEnd_ok crates elf hrun]

theorem runTokens_calls (ending : Ending) : ∀ (tokens : List Token) (out : Str) (arguments : Bytes),
    (tokenCalls crates elf tokens arguments).map HandlerCall.spec = (runTokens crates elf ending tokens out arguments).1 ∧
      ∀ message, (runTokens crates elf ending tokens out arguments).2 = .ok message →
        ∀ call ∈ tokenCalls crates elf tokens arguments, call.left ≠ none
  | [], out, arguments => ⟨rfl, fun _ _ _ hcall => absurd hcall List.not_mem_nil⟩
  | t :: tokens, out, arguments => by
    rw [runTokens, tokenCalls]
    cases hrun : t.kind.handler crates elf (out ++ t.lead) arguments with
    | error exit =>
      simp only [argumentEnd_error crates elf hrun]
      exact ⟨rfl, fun _ h => by cases h⟩
    | ok r =>
      obtain ⟨hspecs, hleft⟩ := runTokens_calls ending tokens r.1 r.2
      simp only [argumentEnd_ok crates elf hrun, List.map_cons, hspecs, true_and]
      intro message hmessage call hcall
      rcases List.mem_cons.mp hcall with rfl | hcall
      · exact Option.some_ne_none _
      · exact hleft message hmessage call hcall

/-- **The calls are those of the loop**: it selects their entries, and a loop that
    returns a text has made them all. -/
theorem handlerCalls_loop (format out : Str) (arguments : Bytes) :
    (handlerCalls crates elf format out arguments).map HandlerCall.spec =
        (formatLoop crates elf format out arguments).1 ∧
      ∀ message, (formatLoop crates elf format out arguments).2 = .ok message →
        ∀ call ∈ handlerCalls crates elf format out arguments, call.left ≠ none := by
  rw [handlerCalls_eq, formatLoop_eq]
  exact runTokens_calls crates elf _ _ out arguments

end

end Host

/-! What is written for an argument, and what a handler takes of it. -/

theorem idxOf_string (s : CString) (rest : Bytes) : (s.bytes ++ 0 :: rest).idxOf 0 = s.bytes.length := by
  rw [List.idxOf_append_of_notMem s.noNul, List.idxOf_cons_self, Nat.add_zero]

theorem drop_string (s : CString) (rest : Bytes) : (s.bytes ++ 0 :: rest).drop (s.bytes.length + 1) = rest := by simp

theorem formatStr_string (s : CString) (out : Str) (rest : Bytes) :
    formatStr out (s.bytes ++ 0 :: rest) = match Utf8.fromUtf8 s.bytes with
      | none => .error (.err .missingLogArgument)
      | some res => .ok (out ++ res, rest) := by
  rw [formatStr_eq, idxOf_string, List.take_left, drop_string]
  cases Utf8.fromUtf8 s.bytes <;> simp

variable {p : Platform}

/-- The pairs of a conversion and a type that the two sides take apart
differently. -/
def PointerToChars (cv : Conv) (T : ArgType) : Prop := cv = .p ∧ T.convertsToCharPtr = true

instance (cv : Conv) (T : ArgType) : Decidable (PointerToChars cv T) := by
  unfold PointerToChars; infer_instance

/-- The argument has no text: a string that is not UTF-8, an address at which the
table has no string, or a number that no unsigned reader takes. -/
def Refused (elf : ElfMetadata) : Conv → Argument p → Prop
  | .s, .stringPointer s => Utf8.fromUtf8 s.bytes = none
  | .k, .internedString a => 0 ∉ elf.strings.drop a.toNat
  | .int _ .o, .signedInteger v | .int _ .x, .signedInteger v => v.toInt < -2 ^ 62
  | _, _ => False

/-- Nine bytes denote no number below `-2 ^ 62`. -/
theorem le_of_wire_length {w : BitVec 64} (hlength : (Argument.signedInteger w : Argument p).wire.length < 10) :
    -2 ^ 62 ≤ w.toInt := by
  obtain ⟨hg, hv, -⟩ := writeLeb128Signed_spec (w := 64) (by decide) w
  rw [← hv]
  have hpos := List.length_pos_of_ne_nil hg.ne_nil
  rw [Argument.wire] at hlength
  obtain ⟨n, hn⟩ : ∃ n, (writeLeb128Signed (w := 64) (by decide) w).length = n + 1 :=
    ⟨_, (Nat.sub_add_cancel hpos).symm⟩
  have hpow : (128 : Int) ^ n ≤ 128 ^ 8 := pow_le_pow_right₀ (by decide) (by omega)
  have hrange := (Leb128.signedValue_range hg hn).1
  omega

section
variable {t : IntType} {v : Int} {h : t.InRange p v} {x : Argument p} (hx : makeArg (.integral t v h) = some x)
include hx

theorem toInt_signedInteger {w : BitVec 64} (hsigned : x = .signedInteger w) : w.toInt = v := by
  obtain ⟨hlo, -, hs, -⟩ := h.bounds
  subst hsigned
  simp only [makeArg] at hx
  split at hx
  · next hsigned =>
    have := hs hsigned
    have hv : (BitVec.ofInt 64 v).toInt = v := BitVec.toInt_ofInt_eq_self (by decide) (by omega) (by omega)
    simp only [Option.some.injEq, Argument.signedInteger.injEq] at hx
    rw [← hx, hv]
  · cases hx

theorem lt_of_wire_length (hneg : v < 0) {n : Nat} (hlength : x.wire.length = n + 2) :
    v < -(64 * 128 ^ n) ∧ x = .signedInteger (BitVec.ofInt 64 v) ∧ (BitVec.ofInt 64 v).toInt = v := by
  obtain ⟨-, -, -, hu⟩ := h.bounds
  have hsigned : t.isSigned p := by
    by_contra hn
    have := hu (by simpa using hn)
    omega
  have heq : x = .signedInteger (BitVec.ofInt 64 v) := by
    simp only [makeArg, hsigned, if_true, Option.some.injEq] at hx
    exact hx.symm
  have hv := toInt_signedInteger hx heq
  rw [heq] at hlength
  have hlarge := writeLeb128Signed_large (w := 64) (by decide) hlength
  have hpos : (0 : Int) < 128 ^ n := Int.pow_pos (by decide)
  rw [hv] at hlarge
  exact ⟨by omega, heq, hv⟩

variable {crates : Crates} (hcrates : crates.Documented)
include hcrates

theorem readUnsigned_integral (rest : Bytes) :
    ¬(∃ w, x = .signedInteger w ∧ w.toInt < -2 ^ 62) ∧ (∃ n, crates.readUnsigned (x.wire ++ rest) = some (n, rest)) ∨
      (∃ w, x = .signedInteger w ∧ w.toInt < -2 ^ 62) ∧ crates.readUnsigned (x.wire ++ rest) = none := by
  rw [hcrates.readUnsigned]
  by_cases h0 : 0 ≤ v
  · refine .inl ⟨fun ⟨w, heq, hlow⟩ => ?_, _, readU64_integral hx h0 rest⟩
    rw [toInt_signedInteger hx heq] at hlow
    omega
  · obtain ⟨-, hread⟩ := readU64_negative hx (by omega)
    rw [hread]
    by_cases h10 : x.wire.length < 10
    · refine .inl ⟨fun ⟨w, heq, hlow⟩ => ?_, _, if_pos h10⟩
      have hlow' := le_of_wire_length (heq ▸ h10)
      omega
    · have hlength : x.wire.length = 8 + 2 := by
        have := (wire_integral hx).2.1
        omega
      obtain ⟨hlt, heq, hv⟩ := lt_of_wire_length hx (by omega) hlength
      exact .inr ⟨⟨_, heq, by rw [hv]; omega⟩, if_neg h10⟩

theorem readUnsigned_char (hchar : (ArgType.integral t).isChar = true) (rest : Bytes) :
    ∃ n, crates.readUnsigned (x.wire ++ rest) = some (n, rest) ∧ (n % 2 ^ 32).isValidChar := by
  obtain ⟨hlo, hhi⟩ := h.char_bounds hchar
  rw [hcrates.readUnsigned]
  by_cases h0 : 0 ≤ v
  · exact ⟨v.toNat, readU64_integral hx h0 rest, .inl (by omega)⟩
  · obtain ⟨hvalue, hread⟩ := readU64_negative hx (by omega)
    have hpos := List.length_pos_of_ne_nil (wire_integral hx).1.ne_nil
    -- one byte or two
    have htwo : x.wire.length ≤ 2 := by
      by_contra hlong
      obtain ⟨n, hn⟩ : ∃ n, x.wire.length = (n + 1) + 2 := ⟨x.wire.length - 3, by omega⟩
      obtain ⟨hlt, -⟩ := lt_of_wire_length hx (by omega) hn
      have hpow : (128 : Int) ^ (n + 1) = 128 * 128 ^ n := by rw [pow_succ]; ring
      have hone : (0 : Int) < 128 ^ n := Int.pow_pos (by decide)
      omega
    refine ⟨Leb128.value x.wire, by rw [hread, if_pos (by omega)], .inl ?_⟩
    obtain hlength | hlength : x.wire.length = 1 ∨ x.wire.length = 2 := by omega
    all_goals
      rw [hlength] at hvalue
      omega

end

theorem convertsToCharPtr_of_accepts {cv : Conv} {T : ArgType} (hacc : cv.accepts p T = true)
    (hs : cv ≠ .s) (hp : cv ≠ .p) : T.convertsToCharPtr = false := by
  cases T with
  | charPtr | stringLike =>
    cases cv with
    | s => exact absurd rfl hs
    | p => exact absurd rfl hp
    | int size letter =>
      cases letter <;> simp [Conv.accepts, IntLetter.accepts, ArgType.isIntegral, ArgType.isSignedIntegral,
        ArgType.isUnsignedIntegral] at hacc
    | _ => cases hacc
  | _ => rfl

section
variable {crates : Crates} (hcrates : crates.Documented) (elf : ElfMetadata)

theorem argumentEnd_string {cv : Conv} {kind : Kind} {s : CString} {T : ArgType} (hT : T.convertsToCharPtr = true)
    (hacc : cv.accepts p T = true) (hne : ¬PointerToChars cv T) (hkind : convKind cv = some kind) (rest : Bytes) :
    ¬Refused elf cv (.stringPointer (p := p) s) ∧
        kind.argumentEnd crates elf ((Argument.stringPointer (p := p) s).wire ++ rest) = some rest ∨
      Refused elf cv (.stringPointer (p := p) s) ∧
        kind.argumentEnd crates elf ((Argument.stringPointer (p := p) s).wire ++ rest) = none := by
  have hs : cv = .s := by
    by_contra hs
    rw [convertsToCharPtr_of_accepts hacc hs fun hp => hne ⟨hp, hT⟩] at hT
    cases hT
  subst hs
  cases hkind
  rw [wire_stringPointer, List.append_assoc, List.singleton_append, Kind.argumentEnd, idxOf_string, List.take_left,
    drop_string]
  cases hutf8 : Utf8.fromUtf8 s.bytes with
  | none => exact .inr ⟨hutf8, by simp⟩
  | some res =>
    refine .inl ⟨fun hrefused => ?_, by simp⟩
    rw [Refused, hutf8] at hrefused
    cases hrefused

include hcrates

/-- **One argument.** The handler of a conversion that accepts it takes its bytes and
    no others, whatever follows, exactly where it has a text. -/
theorem argumentEnd_wire {cv : Conv} {kind : Kind} {a : Arg p} {x : Argument p} (hacc : cv.accepts p a.type = true)
    (hx : makeArg a = some x) (hne : ¬PointerToChars cv a.type) (hkind : convKind cv = some kind) (rest : Bytes) :
    ¬Refused elf cv x ∧ kind.argumentEnd crates elf (x.wire ++ rest) = some rest ∨
      Refused elf cv x ∧ kind.argumentEnd crates elf (x.wire ++ rest) = none := by
  have word (address : BitVec p.pointerBits) :
      crates.readUnsigned (writeLeb128Unsigned p.eight_le_pointerBits address ++ rest) = some (address.toNat, rest) := by
    rw [hcrates.readUnsigned, readU64_word p.eight_le_pointerBits p.pointerBits_le]
  cases a with
  | integral t v h =>
    cases cv with
    | int size letter =>
      cases letter with
      | d =>
        cases hkind
        simp only [Conv.accepts, IntLetter.accepts, Arg.type, ArgType.isSignedIntegral, Bool.and_eq_true] at hacc
        refine .inl ⟨by cases x <;> exact id, ?_⟩
        rw [Kind.argumentEnd, hcrates.readSigned, readS64_integral hx hacc.1]
        rfl
      | i => cases hkind
      | u =>
        cases hkind
        simp only [Conv.accepts, IntLetter.accepts, Arg.type, ArgType.isUnsignedIntegral, Bool.and_eq_true,
          Bool.not_eq_true'] at hacc
        refine .inl ⟨by cases x <;> exact id, ?_⟩
        rw [Kind.argumentEnd, hcrates.readUnsigned, readU64_integral hx (h.bounds.2.2.2 hacc.1)]
        rfl
      | o | x =>
        cases hkind
        rcases readUnsigned_integral hx hcrates rest with ⟨hlow, n, hread⟩ | ⟨⟨w, rfl, hlow⟩, hread⟩
        · refine .inl ⟨fun hrefused => ?_, ?_⟩
          · cases x with
            | signedInteger w => exact hlow ⟨w, rfl, hrefused⟩
            | _ => exact hrefused
          · rw [Kind.argumentEnd, hread]
            rfl
        · refine .inr ⟨hlow, ?_⟩
          rw [Kind.argumentEnd, hread]
          rfl
    | c =>
      cases hkind
      obtain ⟨n, hread, hvalid⟩ := readUnsigned_char hx hcrates hacc rest
      refine .inl ⟨by cases x <;> exact id, ?_⟩
      rw [Kind.argumentEnd, hread, Option.bind_some, if_pos hvalid]
    | s | p | k => cases hacc
  | charPtr s =>
    cases hx
    exact argumentEnd_string elf rfl hacc hne hkind rest
  | stringLike s =>
    cases hx
    exact argumentEnd_string elf rfl hacc hne hkind rest
  | dataPtr address =>
    cases hx
    cases cv with
    | p =>
      cases hkind
      refine .inl ⟨id, ?_⟩
      rw [Kind.argumentEnd, Argument.wire, word]
      rfl
    | int size letter => cases letter <;> cases hacc
    | _ => cases hacc
  | internedString address =>
    cases hx
    cases cv with
    | k =>
      cases hkind
      rw [Kind.argumentEnd, Argument.wire, word, Option.bind_some]
      by_cases hentry : 0 ∈ elf.strings.drop address.toNat
      · exact .inl ⟨fun hrefused => hrefused hentry, if_pos hentry⟩
      · exact .inr ⟨hentry, if_neg hentry⟩
    | int size letter => cases letter <;> cases hacc
    | _ => cases hacc
  | barePtr _ => cases hx
  | other => cases hx

end

/-! The calls of a message. -/

/-- The calls are those of the conversions in their order, each on its own argument
and those that follow, of which it leaves those that follow; exactly one whose
argument has no text does not return, and is the last. -/
def CallsAligned (elf : ElfMetadata) : List HandlerCall → List Conv → List (Argument p) → Prop
  | [], [], [] => True
  | call :: calls, cv :: cvs, x :: xs =>
    call.spec = convSpec cv ∧ call.given = argumentBytes (x :: xs) ∧
      (¬Refused elf cv x ∧ call.left = some (argumentBytes xs) ∧ CallsAligned elf calls cvs xs ∨
        Refused elf cv x ∧ call.left = none ∧ calls = [])
  | _, _, _ => False

/-- The calls are those of the conversions in their order, and each returns and takes
exactly the bytes of its argument. -/
def CallsConsume : List HandlerCall → List Conv → List (Argument p) → Prop
  | [], [], [] => True
  | call :: calls, cv :: cvs, x :: xs =>
    call.spec = convSpec cv ∧ call.given = argumentBytes (x :: xs) ∧ call.left = some (argumentBytes xs) ∧
      CallsConsume calls cvs xs
  | _, _, _ => False

/-- The calls of the conversions. -/
def conversionCalls (calls : List HandlerCall) : List HandlerCall := calls.filter (·.spec ≠ ['%', '%'])

/-- The argument bytes of a format with these types are aligned with its conversions,
whatever the values: the handler of each conversion takes exactly the bytes of its
argument, and behind the last no byte is left. -/
def ArgumentsAligned (p : Platform) (fmt : List Char) (types : List ArgType) : Prop :=
  ∀ (crates : Crates) (elf : ElfMetadata) (args : List (Arg p)) (arguments : List (Argument p)),
    crates.Documented → args.map Arg.type = types → buildArgs args = some arguments →
    CallsAligned elf (conversionCalls (handlerCalls crates elf fmt [] (argumentBytes arguments)))
      (conversions fmt) arguments

/-- On these values every handler takes exactly the bytes of its argument, and behind
the last no byte is left. -/
def ConsumesArguments (crates : Crates) (elf : ElfMetadata) (fmt : List Char) (arguments : List (Argument p)) : Prop :=
  CallsConsume (conversionCalls (handlerCalls crates elf fmt [] (argumentBytes arguments))) (conversions fmt) arguments

/-- The entries that the scan of the loop meets are the conversions. -/
def ScansConversions (fmt : List Char) : Prop :=
  selectedConversions ((tokenize fmt).1.map Token.spec) = (conversions fmt).map convSpec

/-! Where the scan meets the conversions. -/

theorem scanFrom_text : ∀ (ps : List Piece) (lead : Str), scanFrom 0 lead (text ps) = pieceTokens lead ps
  | [], lead => rfl
  | .lit c hc :: ps, lead => by
    rw [text_cons, Piece.text, List.singleton_append, scanFrom, if_neg hc, pieceTokens, scanFrom_text ps]
  | .percent :: ps, lead => by
    have hfind := findKind_percents (text ps)
    have hskip := scanFrom_skip [] ['%'] (text ps)
    rw [text_cons, Piece.text, pieceTokens, ← scanFrom_text ps]
    rw [List.cons_append, List.cons_append, List.nil_append] at hfind ⊢
    rw [scanFrom, if_pos rfl, hfind]
    exact congrArg (fun scanned : List Token × Ending => (⟨lead, ['%', '%'], .percent⟩ :: scanned.1, scanned.2)) hskip
  | .conv cv :: ps, lead => by
    have hfind := findKind_conv cv (text ps)
    have hskip := scanFrom_skip [] cv.text (text ps)
    rw [text_cons, Piece.text, pieceTokens, ← scanFrom_text ps]
    rw [convSpec, List.cons_append] at hfind
    rw [List.cons_append, scanFrom, if_pos rfl, hfind]
    cases convKind cv with
    | none => rfl
    | some kind =>
      exact congrArg (fun scanned : List Token × Ending => (⟨lead, convSpec cv, kind⟩ :: scanned.1, scanned.2)) hskip

theorem pieceTokens_selected : ∀ (ps : List Piece) (lead : Str), (∀ cv ∈ convs ps, convKind cv ≠ none) →
    selectedConversions ((pieceTokens lead ps).1.map Token.spec) = (convs ps).map convSpec
  | [], lead, _ => rfl
  | .lit c hc :: ps, lead, h => pieceTokens_selected ps (lead ++ [c]) h
  | .percent :: ps, lead, h => by
    have ih := pieceTokens_selected ps [] h
    simpa [pieceTokens, selectedConversions] using ih
  | .conv cv :: ps, lead, h => by
    have ih := pieceTokens_selected ps [] fun cv' hcv => h cv' (List.mem_cons_of_mem _ hcv)
    obtain ⟨kind, hkind⟩ := Option.ne_none_iff_exists'.mp (h cv List.mem_cons_self)
    simpa [pieceTokens, hkind, selectedConversions, convSpec_ne_percent] using ih

/-- **Without drift** the scan meets the conversions of an accepted format, if the
    table has them. -/
theorem scansConversions_of_aligned {p : Platform} {fmt : List Char} {types : List ArgType}
    (haccepts : formatValidator p fmt types = true) (haligned : Host.Aligned fmt)
    (hknown : ∀ cv ∈ conversions fmt, convKind cv ≠ none) : ScansConversions fmt := by
  obtain ⟨ps, rfl, hconvs, -⟩ := accepted_pieces haccepts
  rw [hconvs] at hknown
  rw [ScansConversions, tokenize_aligned _ haligned, scan, scanFrom_text, hconvs]
  exact pieceTokens_selected ps [] hknown

theorem tokenize_mem (format : Str) : ∀ t ∈ (tokenize format).1, (t.spec, t.kind) ∈ specKinds := by
  induction format using tokenize.induct with
  | case1 format hpos => simp [tokenize, hpos]
  | case2 format pos hpos hrest =>
    rw [tokenize]
    simp only [hpos]
    split
    · simp
    · next h => rw [hrest] at h; cases h
  | case3 format pos hpos c rest hrest hfind =>
    rw [tokenize_turn hpos hrest, hfind]
    simp
  | case4 format pos hpos c rest hrest spec kind hfind _ _ _ ih =>
    rw [tokenize_turn hpos hrest, hfind]
    intro t ht
    rcases List.mem_cons.mp ht with rfl | ht
    · exact List.mem_of_find?_eq_some hfind
    · exact ih t ht

theorem specKinds_percent {kind : Kind} (h : (['%', '%'], kind) ∈ specKinds) : kind = .percent := by
  revert h
  cases kind <;> decide

theorem specKinds_conv {cv : Conv} {kind : Kind} (h : (convSpec cv, kind) ∈ specKinds) : convKind cv = some kind := by
  have hfind := findKind_conv cv []
  rw [findKind_iff.mpr ⟨h, List.prefix_append ..⟩] at hfind
  obtain ⟨kind', hkind, heq⟩ := Option.map_eq_some_iff.mp hfind.symm
  cases heq
  exact hkind

section
variable {crates : Crates} {elf : ElfMetadata}

theorem callsAligned_of_accepts (hcrates : crates.Documented) {tokens : List Token}
    (htokens : ∀ t ∈ tokens, (t.spec, t.kind) ∈ specKinds) {cvs : List Conv} {args : List (Arg p)}
    {arguments : List (Argument p)} (hselected : selectedConversions (tokens.map Token.spec) = cvs.map convSpec)
    (hacc : List.Forall₂ (fun cv T => cv.accepts p T = true) cvs (args.map Arg.type))
    (hb : buildArgs args = some arguments) (hne : ∀ pair ∈ cvs.zip (args.map Arg.type), ¬PointerToChars pair.1 pair.2) :
    CallsAligned elf (conversionCalls (tokenCalls crates elf tokens (argumentBytes arguments))) cvs arguments := by
  induction tokens generalizing cvs args arguments with
  | nil =>
    obtain rfl : cvs = [] := List.map_eq_nil_iff.mp hselected.symm
    obtain rfl : args = [] := by simpa using hacc
    obtain rfl : [] = arguments := Option.some.inj hb
    trivial
  | cons t tokens ih =>
    have hmem := htokens t List.mem_cons_self
    have htokens := fun u hu => htokens u (List.mem_cons_of_mem t hu)
    by_cases hpercent : t.spec = ['%', '%']
    · -- takes nothing
      have hkind : t.kind = .percent := by
        rw [hpercent] at hmem
        exact specKinds_percent hmem
      have hselected : selectedConversions (tokens.map Token.spec) = cvs.map convSpec := by
        rw [← hselected]
        simp [selectedConversions, hpercent]
      have ih := ih htokens hselected hacc hb hne
      simpa [tokenCalls, hkind, Kind.argumentEnd, conversionCalls, hpercent] using ih
    · have hcons : selectedConversions ((t :: tokens).map Token.spec) =
          t.spec :: selectedConversions (tokens.map Token.spec) := by
        simp [selectedConversions, hpercent]
      rw [hcons] at hselected
      cases cvs with
      | nil => cases hselected
      | cons cv cvs =>
        rw [List.map_cons, List.cons.injEq] at hselected
        cases args with
        | nil => cases hacc
        | cons a args =>
          obtain ⟨x, xs, hx, hxs, rfl⟩ := buildArgs_cons_some hb
          rw [List.map_cons, List.forall₂_cons] at hacc
          have hkind : convKind cv = some t.kind := specKinds_conv (hselected.1 ▸ hmem)
          have hpair : ¬PointerToChars cv a.type := hne _ List.mem_cons_self
          have hone := argumentEnd_wire hcrates elf hacc.1 hx hpair hkind (argumentBytes xs)
          rw [← argumentBytes_cons] at hone
          rw [tokenCalls]
          rcases hone with ⟨htext, hleft⟩ | ⟨hrefused, hleft⟩
          · simp only [hleft, conversionCalls, List.filter_cons, ne_eq, hpercent, not_false_eq_true, decide_true, if_true]
            refine ⟨hselected.1, rfl, .inl ⟨htext, rfl, ?_⟩⟩
            exact ih htokens hselected.2 hacc.2 hxs fun pair hp => hne pair (List.mem_cons_of_mem _ hp)
          · simp only [hleft, conversionCalls, List.filter_cons, ne_eq, hpercent, not_false_eq_true, decide_true, if_true]
            exact ⟨hselected.1, rfl, .inr ⟨hrefused, rfl, rfl⟩⟩

/-- Aligned calls all return exactly where every argument has a text. -/
theorem CallsAligned.consume_iff {calls : List HandlerCall} {cvs : List Conv} {xs : List (Argument p)}
    (h : CallsAligned elf calls cvs xs) :
    CallsConsume calls cvs xs ↔ ∀ pair ∈ cvs.zip xs, ¬Refused elf pair.1 pair.2 := by
  induction calls, cvs, xs using CallsConsume.induct with
  | case1 => exact ⟨fun _ _ hmem => absurd hmem List.not_mem_nil, fun _ => trivial⟩
  | case2 call calls cv cvs x xs ih =>
    obtain ⟨hspec, hgiven, ⟨htext, hleft, hrest⟩ | ⟨hrefused, hleft, -⟩⟩ := h
    · have ih := ih hrest
      refine ⟨fun hconsume pair hpair => ?_, fun htexts => ⟨hspec, hgiven, hleft, ?_⟩⟩
      · rcases List.mem_cons.mp hpair with rfl | hpair
        · exact htext
        · exact ih.mp hconsume.2.2.2 pair hpair
      · exact ih.mpr fun pair hpair => htexts pair (List.mem_cons_of_mem _ hpair)
    · refine ⟨fun hconsume => ?_, fun htexts => absurd hrefused (htexts _ List.mem_cons_self)⟩
      have hreturns := hleft.symm.trans hconsume.2.2.1
      cases hreturns
  | case3 calls cvs xs hnil hcons =>
    rw [CallsAligned] at h
    · exact h.elim
    · exact hnil
    · exact hcons

theorem CallsConsume.specs {calls : List HandlerCall} {cvs : List Conv} {xs : List (Argument p)}
    (h : CallsConsume calls cvs xs) :
    calls.map HandlerCall.spec = cvs.map convSpec ∧ ∀ call ∈ calls, call.left ≠ none := by
  induction calls, cvs, xs using CallsConsume.induct with
  | case1 => exact ⟨rfl, fun _ hcall => absurd hcall List.not_mem_nil⟩
  | case2 call calls cv cvs x xs ih =>
    obtain ⟨hspec, -, hleft, hrest⟩ := h
    obtain ⟨hspecs, hall⟩ := ih hrest
    refine ⟨by rw [List.map_cons, List.map_cons, hspec, hspecs], fun other hother => ?_⟩
    rcases List.mem_cons.mp hother with rfl | hother
    · rw [hleft]
      exact Option.some_ne_none _
    · exact hall other hother
  | case3 calls cvs xs hnil hcons =>
    rw [CallsConsume] at h
    · exact h.elim
    · exact hnil
    · exact hcons

theorem CallsAligned.call {calls : List HandlerCall} {before after : List Conv} {cv : Conv}
    {xs ys : List (Argument p)} {x : Argument p} (hlength : before.length = xs.length)
    (h : CallsAligned elf calls (before ++ cv :: after) (xs ++ x :: ys))
    (htext : ∀ pair ∈ before.zip xs, ¬Refused elf pair.1 pair.2) :
    ∃ call ∈ calls, call.spec = convSpec cv ∧ call.given = argumentBytes (x :: ys) ∧
      (call.left = some (argumentBytes ys) ∨ Refused elf cv x) := by
  induction before generalizing calls xs with
  | nil =>
    obtain rfl : xs = [] := List.length_eq_zero_iff.mp hlength.symm
    cases calls with
    | nil => exact h.elim
    | cons call calls =>
      obtain ⟨hspec, hgiven, hleft⟩ := h
      exact ⟨call, List.mem_cons_self, hspec, hgiven, hleft.imp (fun h => h.2.1) And.left⟩
  | cons cv' before ih =>
    cases xs with
    | nil => cases hlength
    | cons x' xs =>
      cases calls with
      | nil => exact h.elim
      | cons call calls =>
        obtain ⟨-, -, ⟨-, -, hrest⟩ | ⟨hrefused, -, -⟩⟩ := h
        · obtain ⟨found, hfound, hcall⟩ := ih (Nat.succ.inj hlength) hrest fun pair hp =>
            htext pair (List.mem_cons_of_mem _ hp)
          exact ⟨found, List.mem_cons_of_mem _ hfound, hcall⟩
        · exact absurd hrefused (htext _ List.mem_cons_self)

theorem tokenCalls_specs {tokens : List Token} {arguments : Bytes}
    (h : ∀ call ∈ tokenCalls crates elf tokens arguments, call.left ≠ none) :
    (tokenCalls crates elf tokens arguments).map HandlerCall.spec = tokens.map Token.spec := by
  induction tokens generalizing arguments with
  | nil => rfl
  | cons t tokens ih =>
    rw [tokenCalls] at h ⊢
    cases hleft : t.kind.argumentEnd crates elf arguments with
    | none =>
      simp only [hleft] at h
      exact absurd rfl (h _ List.mem_cons_self)
    | some left =>
      simp only [hleft] at h
      simp only [List.map_cons, ih fun call hcall => h call (List.mem_cons_of_mem _ hcall)]

theorem tokenCalls_left {tokens : List Token} {arguments : Bytes} (htokens : ∀ t ∈ tokens, (t.spec, t.kind) ∈ specKinds) :
    ∀ call ∈ tokenCalls crates elf tokens arguments, ∃ kind, (call.spec, kind) ∈ specKinds ∧
      call.left = kind.argumentEnd crates elf call.given := by
  induction tokens generalizing arguments with
  | nil => exact fun _ hcall => absurd hcall List.not_mem_nil
  | cons t tokens ih =>
    have hmem := htokens t List.mem_cons_self
    rw [tokenCalls]
    intro call hcall
    cases hleft : t.kind.argumentEnd crates elf arguments with
    | none =>
      simp only [hleft, List.mem_singleton] at hcall
      subst hcall
      exact ⟨t.kind, hmem, hleft.symm⟩
    | some left =>
      simp only [hleft] at hcall
      rcases List.mem_cons.mp hcall with rfl | hcall
      · exact ⟨t.kind, hmem, hleft.symm⟩
      · exact ih (fun u hu => htokens u (List.mem_cons_of_mem _ hu)) call hcall

end

/-! Where they are not aligned. -/

theorem not_refused_zero {x : Argument p} (hx : x.wire = [0]) (cv : Conv) : ¬Refused emptyString cv x := by
  intro h
  cases x with
  | stringPointer s =>
    cases cv with
    | s =>
      rw [wire_stringPointer] at hx
      obtain rfl : s = ⟨[], by simp, by simp⟩ := by
        cases s with
        | mk bytes _ _ => simpa using hx
      cases h
    | int size letter => cases letter <;> exact h
    | _ => exact h
  | internedString a =>
    cases cv with
    | k =>
      have hvalue := (writeLeb128Unsigned_spec p.eight_le_pointerBits a).2.1
      rw [show writeLeb128Unsigned p.eight_le_pointerBits a = [0] from hx] at hvalue
      have hzero : a.toNat = 0 := hvalue.symm
      apply h
      rw [hzero]
      exact List.mem_cons_self
    | int size letter => cases letter <;> exact h
    | _ => exact h
  | signedInteger v =>
    have hvalue := (writeLeb128Signed_spec (w := 64) (by decide) v).2.1
    rw [show writeLeb128Signed (w := 64) (by decide) v = [0] from hx] at hvalue
    have hzero : v.toInt = 0 := hvalue.symm
    cases cv with
    | int size letter =>
      cases letter with
      | o | x =>
        have hlow : v.toInt < -2 ^ 62 := h
        omega
      | _ => exact h
    | _ => exact h
  | unsignedInteger _ | voidPtr _ =>
    cases cv with
    | int size letter => cases letter <;> exact h
    | _ => exact h

theorem not_refused_zeros {cvs : List Conv} {xs : List (Argument p)} (hxs : ∀ x ∈ xs, x.wire = [0]) :
    ∀ pair ∈ cvs.zip xs, ¬Refused emptyString pair.1 pair.2 :=
  fun pair hpair => not_refused_zero (hxs pair.2 (List.of_mem_zip hpair).2) pair.1

/-- Zeros are taken by all handlers, so an aligned format has met its conversions. -/
theorem ArgumentsAligned.scans {fmt : List Char} {types : List ArgType} (h : ArgumentsAligned p fmt types)
    (hlog : ∀ T ∈ types, T.loggable) : ScansConversions fmt := by
  obtain ⟨args, arguments, ht, hb, hzero⟩ := exists_args (p := p) hlog
  have hcalls := h Crates.reference emptyString args arguments Crates.reference_documented ht hb
  rw [handlerCalls_eq] at hcalls
  obtain ⟨hspecs, hleft⟩ := (hcalls.consume_iff.mpr (not_refused_zeros hzero)).specs
  have hall : ∀ call ∈ tokenCalls Crates.reference emptyString (tokenize fmt).1 (argumentBytes arguments),
      call.left ≠ none := by
    intro call hcall
    by_cases hpercent : call.spec = ['%', '%']
    · obtain ⟨kind, hmem, heq⟩ := tokenCalls_left (tokenize_mem fmt) call hcall
      rw [hpercent] at hmem
      rw [heq, specKinds_percent hmem]
      exact Option.some_ne_none _
    · exact hleft call (List.mem_filter.mpr ⟨hcall, by simpa using hpercent⟩)
  rw [ScansConversions, ← tokenCalls_specs hall, ← hspecs, selectedConversions, List.filter_map]
  rfl

/-- The string `"h"`. -/
def oneLetter : CString := ⟨[104], by decide, by decide⟩

/-- Zeros in front of that string, where a `%p` has a type that converts to
`const char*`. -/
theorem exists_oneLetter {cvs : List Conv} {types : List ArgType} (hlog : ∀ T ∈ types, T.loggable)
    (h : ∃ pair ∈ cvs.zip types, PointerToChars pair.1 pair.2) :
    ∃ (before after : List Conv) (args : List (Arg p)) (xs ys : List (Argument p)), cvs = before ++ .p :: after ∧
      before.length = xs.length ∧ args.map Arg.type = types ∧
      buildArgs args = some (xs ++ .stringPointer oneLetter :: ys) ∧ ∀ x ∈ xs, x.wire = [0] := by
  induction cvs generalizing types with
  | nil => obtain ⟨_, h, -⟩ := h; cases h
  | cons cv cvs ih =>
    cases types with
    | nil => obtain ⟨_, h, -⟩ := h; cases h
    | cons T types =>
      have hlog' : ∀ T ∈ types, T.loggable := fun T hT => hlog T (List.mem_cons_of_mem _ hT)
      obtain ⟨pair, hmem, hpair⟩ := h
      rcases List.mem_cons.mp hmem with rfl | hmem
      · obtain ⟨args, arguments, ht, hb, -⟩ := exists_args (p := p) hlog'
        obtain ⟨hcv, hT⟩ := hpair
        simp only at hcv hT
        subst hcv
        obtain ⟨a, rfl, ha⟩ : ∃ a : Arg p, a.type = T ∧ makeArg a = some (.stringPointer oneLetter) := by
          cases T with
          | charPtr => exact ⟨.charPtr oneLetter, rfl, rfl⟩
          | stringLike => exact ⟨.stringLike oneLetter, rfl, rfl⟩
          | _ => cases hT
        refine ⟨[], cvs, a :: args, [], arguments, rfl, rfl, by rw [List.map_cons, ht], ?_, by simp⟩
        rw [buildArgs_cons, ha, hb]
        rfl
      · obtain ⟨before, after, args, xs, ys, rfl, hlength, ht, hb, hzero⟩ := ih hlog' ⟨pair, hmem, hpair⟩
        obtain ⟨a, x, hT, hx, hwire⟩ := exists_zero (p := p) (hlog T List.mem_cons_self)
        refine ⟨cv :: before, after, a :: args, x :: xs, ys, rfl, congrArg Nat.succ hlength,
          by rw [List.map_cons, hT, ht], ?_, List.forall_mem_cons.mpr ⟨hwire, hzero⟩⟩
        rw [buildArgs_cons, hx, hb]
        rfl

/-- The handler of `%p` takes the letter of that string for a number, and leaves the
NUL. -/
theorem not_argumentsAligned {fmt : List Char} {types : List ArgType} (hlog : ∀ T ∈ types, T.loggable)
    (hpointer : ∃ pair ∈ (conversions fmt).zip types, PointerToChars pair.1 pair.2) : ¬ArgumentsAligned p fmt types := by
  intro h
  obtain ⟨before, after, args, xs, ys, hconvs, hlength, ht, hb, hzero⟩ := exists_oneLetter (p := p) hlog hpointer
  have hcalls := h Crates.reference emptyString args _ Crates.reference_documented ht hb
  rw [handlerCalls_eq, hconvs] at hcalls
  obtain ⟨call, hcall, hspec, hgiven, hleft⟩ := hcalls.call hlength (not_refused_zeros hzero)
  obtain ⟨kind, hmem, heq⟩ := tokenCalls_left (tokenize_mem fmt) call (List.mem_of_mem_filter hcall)
  rw [hspec] at hmem
  have hkind : convKind .p = some kind := specKinds_conv hmem
  cases hkind
  have hread : call.left = some (0 :: argumentBytes ys) := by
    rw [heq, hgiven, argumentBytes_cons, wire_stringPointer]
    rfl
  rcases hleft with hleft | hrefused
  · rw [hread, Option.some.injEq] at hleft
    exact absurd (congrArg List.length hleft) (by simp)
  · exact hrefused

/-- **Argument alignment**, exactly where the scan meets the conversions and no `%p`
    is given a type that converts to `const char*`. All the handlers then return
    exactly where every argument has a text. -/
theorem aligned_iff (p : Platform) (fmt : List Char) (types : List ArgType)
    (haccepts : formatValidator p fmt types = true) (hlog : ∀ T ∈ types, T.loggable) :
    (ArgumentsAligned p fmt types ↔
      ScansConversions fmt ∧ ∀ pair ∈ (conversions fmt).zip types, ¬PointerToChars pair.1 pair.2) ∧
    (ArgumentsAligned p fmt types →
      ∀ (crates : Crates) (elf : ElfMetadata) (args : List (Arg p)) (arguments : List (Argument p)),
        crates.Documented → args.map Arg.type = types → buildArgs args = some arguments →
        (ConsumesArguments crates elf fmt arguments ↔
          ∀ pair ∈ (conversions fmt).zip arguments, ¬Refused elf pair.1 pair.2)) := by
  refine ⟨⟨fun h => ?_, fun ⟨hscans, hne⟩ crates elf args arguments hcrates ht hb => ?_⟩,
    fun h crates elf args arguments hcrates ht hb => (h crates elf args arguments hcrates ht hb).consume_iff⟩
  · exact ⟨h.scans hlog, fun pair hmem hpair => not_argumentsAligned hlog ⟨pair, hmem, hpair⟩ h⟩
  · obtain ⟨ps, rfl, hconvs, hacc⟩ := accepted_pieces haccepts
    rw [← hconvs] at hacc
    subst ht
    rw [handlerCalls_eq]
    exact callsAligned_of_accepts hcrates (tokenize_mem _) hscans hacc hb hne

theorem aligned_degrees :
    ArgumentsAligned ⟨true, true, true⟩ "%s %lu %p °C".toList [.charPtr, .integral .ulong, .dataPtr] := by
  have haccepts : formatValidator ⟨true, true, true⟩ "%s %lu %p °C".toList
      [.charPtr, .integral .ulong, .dataPtr] = true := by decide
  have hscans := scansConversions_of_aligned haccepts (by decide) (by decide)
  exact (aligned_iff _ _ _ haccepts (by decide)).1.mpr ⟨hscans, by decide⟩

theorem percent_p_with_chars_fails :
    ¬∀ (p : Platform) (fmt : List Char) (types : List ArgType), formatValidator p fmt types = true →
      (∀ T ∈ types, T.loggable) → (∀ cv ∈ conversions fmt, (findKind (convSpec cv)).isSome) →
      ArgumentsAligned p fmt types := by
  intro h
  have hp := h ⟨true, true, true⟩ "%p".toList [.charPtr] (by decide) (by decide) (by decide)
  exact not_argumentsAligned (by decide) (by decide) hp

end Postform
