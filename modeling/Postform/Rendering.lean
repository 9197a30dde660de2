import Postform.DecoderSafety
import Postform.Logger

/- The validator's grammar against the host's table. On an accepted ASCII format
   the loop of `format_string` meets the conversions the validator matched, one
   after the other, and never an unknown one, as long as no conversion is `%i`:
   the validator takes `%i` in every size and the table has no entry for it.
   With it the host fails at the first `%i` it reaches (`runTokens_zero`). -/
namespace Postform

open Wire Host

/-! The tokens of the pieces. -/

/-- The entries a list of pieces asks for, `%%` aside. -/
def selectedConversions (selected : List Str) : List Str := selected.filter (· ≠ ['%', '%'])

theorem convSpec_ne_percent (cv : Conv) : convSpec cv ≠ ['%', '%'] := by
  cases cv with
  | int size letter => cases size <;> cases letter <;> decide
  | _ => decide

theorem findSpec_conv (crates : Crates) (elf : ElfMetadata) (cv : Conv) : findSpec crates elf (convSpec cv) =
    (convKind cv).map fun kind => (convSpec cv, kind.handler crates elf) := by
  have h := findKind_conv cv []
  rw [List.append_nil] at h
  rw [findSpec_eq, h, Option.map_map]
  rfl

theorem convKind_none {cv : Conv} : convKind cv = none ↔ ∃ size, cv = .int size .i := by
  cases cv with
  | int size letter => cases letter <;> simp [convKind]
  | _ => simp [convKind]

theorem pieceTokens_ending : ∀ (ps : List Piece) (lead : Str), (∀ cv ∈ convs ps, convKind cv ≠ none) →
    ∃ rest, (pieceTokens lead ps).2 = .text rest
  | [], lead, _ => ⟨lead, rfl⟩
  | .lit c hc :: ps, lead, h => pieceTokens_ending ps (lead ++ [c]) h
  | .percent :: ps, lead, h => pieceTokens_ending ps [] h
  | .conv cv :: ps, lead, h => by
    obtain ⟨kind, hkind⟩ := Option.ne_none_iff_exists'.mp (h cv List.mem_cons_self)
    simp only [pieceTokens, hkind]
    exact pieceTokens_ending ps [] fun cv' hcv => h cv' (List.mem_cons_of_mem _ hcv)

section
variable (crates : Crates) (elf : ElfMetadata)

theorem runTokens_ne_unknown (rest : Str) (c : Char) : ∀ (tokens : List Token) (out : Str) (b : Bytes),
    (runTokens crates elf (.text rest) tokens out b).2 ≠ .error (.err (.invalidFormatSpecifier c))
  | [], out, _ => by
    intro h
    cases h
  | t :: tokens, out, b => by
    rw [runTokens]
    cases hh : t.kind.handler crates elf (out ++ t.lead) b with
    | error exit =>
      intro h
      cases h
      exact handler_ne_invalidFormatSpecifier crates elf t.kind _ _ _ hh
    | ok r => exact runTokens_ne_unknown rest c tokens r.1 r.2

/-- What is left of the arguments behind these conversions, `none` where one of them
cannot take its own. -/
def argumentsBehind : List Conv → Bytes → Option Bytes
  | [], b => some b
  | cv :: cvs, b => (convKind cv).bind fun kind => (kind.argumentEnd crates elf b).bind (argumentsBehind cvs)

theorem argumentsBehind_cons {cv : Conv} {kind : Kind} {b left : Bytes} (hkind : convKind cv = some kind)
    (hleft : kind.argumentEnd crates elf b = some left) (cvs : List Conv) :
    argumentsBehind crates elf (cv :: cvs) b = argumentsBehind crates elf cvs left := by
  rw [argumentsBehind, hkind, Option.bind_some, hleft, Option.bind_some]

/-- The run stopped at a conversion whose handler cannot take the arguments that are
left there. -/
def StopsAtArgument (cvs : List Conv) (b : Bytes) (run : List Str × Res Str) : Prop :=
  ∃ before cv after kind left out exit, cvs = before ++ cv :: after ∧
    selectedConversions run.1 = (before ++ [cv]).map convSpec ∧ argumentsBehind crates elf before b = some left ∧
    convKind cv = some kind ∧ kind.handler crates elf out left = .error exit ∧ run.2 = .error exit

theorem StopsAtArgument.cons {cv : Conv} {cvs : List Conv} {kind : Kind} {b left : Bytes} {run : List Str × Res Str}
    (hkind : convKind cv = some kind) (hleft : kind.argumentEnd crates elf b = some left)
    (h : StopsAtArgument crates elf cvs left run) :
    StopsAtArgument crates elf (cv :: cvs) b (convSpec cv :: run.1, run.2) := by
  obtain ⟨before, cv', after, kind', left', out, exit, rfl, hsel, hbehind, hkind', hexit, hrun⟩ := h
  refine ⟨cv :: before, cv', after, kind', left', out, exit, rfl, ?_, ?_, hkind', hexit, hrun⟩
  · rw [List.cons_append, List.map_cons, ← hsel]
    simp [selectedConversions, convSpec_ne_percent]
  · rw [argumentsBehind_cons crates elf hkind hleft, hbehind]

end

theorem runTokens_conv (crates : Crates) (elf : ElfMetadata) {cv : Conv} {kind : Kind} (hkind : convKind cv = some kind)
    (lead : Str) (ps : List Piece) (out : Str) (b : Bytes) :
    runTokens crates elf (pieceTokens lead (.conv cv :: ps)).2 (pieceTokens lead (.conv cv :: ps)).1 out b =
      match kind.handler crates elf (out ++ lead) b with
      | .error exit => ([convSpec cv], .error exit)
      | .ok (out, b) =>
        let run := runTokens crates elf (pieceTokens [] ps).2 (pieceTokens [] ps).1 out b
        (convSpec cv :: run.1, run.2) := by
  cases hrun : kind.handler crates elf (out ++ lead) b with
  | error exit => simp only [pieceTokens, hkind, runTokens, hrun]
  | ok r => simp only [pieceTokens, hkind, runTokens, hrun]

section
variable (crates : Crates) (elf : ElfMetadata)

/-- **With an entry for every conversion** the run selects them all, or stops at an
    argument. -/
theorem runTokens_stops : ∀ (ps : List Piece) (lead out : Str) (b : Bytes), (∀ cv ∈ convs ps, convKind cv ≠ none) →
    let run := runTokens crates elf (pieceTokens lead ps).2 (pieceTokens lead ps).1 out b
    selectedConversions run.1 = (convs ps).map convSpec ∨ StopsAtArgument crates elf (convs ps) b run
  | [], _, _, _, _ => .inl rfl
  | .lit c hc :: ps, lead, out, b, h => runTokens_stops ps (lead ++ [c]) out b h
  | .percent :: ps, lead, out, b, h => runTokens_stops ps [] (out ++ lead ++ ['%']) b h
  | .conv cv :: ps, lead, out, b, h => by
    obtain ⟨kind, hkind⟩ := Option.ne_none_iff_exists'.mp (h cv List.mem_cons_self)
    rw [convs_conv]
    simp only [runTokens_conv crates elf hkind]
    cases hh : kind.handler crates elf (out ++ lead) b with
    | error exit =>
      refine .inr ⟨[], cv, convs ps, kind, b, _, exit, rfl, ?_, rfl, hkind, hh, rfl⟩
      simp [selectedConversions, convSpec_ne_percent]
    | ok r =>
      have hleft := argumentEnd_ok crates elf hh
      rcases runTokens_stops ps [] r.1 r.2 fun cv' hcv => h cv' (List.mem_cons_of_mem _ hcv) with hall | hstops
      · left
        rw [List.map_cons, ← hall]
        simp [selectedConversions, convSpec_ne_percent]
      · exact .inr (hstops.cons crates elf hkind hleft)

/-- **When all are selected**: the last conversion is, whatever its argument. -/
theorem runTokens_selects_iff : ∀ (ps : List Piece) (lead out : Str) (b : Bytes),
    selectedConversions (runTokens crates elf (pieceTokens lead ps).2 (pieceTokens lead ps).1 out b).1 =
      (convs ps).map convSpec ↔ (∀ size, .int size .i ∉ convs ps) ∧
        (argumentsBehind crates elf (convs ps).dropLast b).isSome
  | [], _, _, _ => iff_of_true rfl ⟨fun _ => List.not_mem_nil, rfl⟩
  | .lit c hc :: ps, lead, out, b => runTokens_selects_iff ps (lead ++ [c]) out b
  | .percent :: ps, lead, out, b => runTokens_selects_iff ps [] (out ++ lead ++ ['%']) b
  | .conv cv :: ps, lead, out, b => by
    have hnot : selectedConversions ([] : List Str) ≠ (cv :: convs ps).map convSpec := by
      rw [List.map_cons]
      exact fun h => List.cons_ne_nil _ _ h.symm
    rw [convs_conv]
    cases hkind : convKind cv with
    | none =>
      obtain ⟨size, rfl⟩ := convKind_none.mp hkind
      simp only [pieceTokens, hkind, runTokens]
      exact iff_of_false hnot fun h => h.1 size List.mem_cons_self
    | some kind =>
      have hi : (∀ size, .int size .i ∉ cv :: convs ps) ↔ ∀ size, .int size .i ∉ convs ps := by
        have hcv : ∀ size, .int size .i ≠ cv := by
          intro size heq
          rw [← heq] at hkind
          cases hkind
        simp only [List.mem_cons, not_or, hcv, not_false_eq_true, true_and]
      rw [runTokens_conv crates elf hkind, hi]
      cases hh : kind.handler crates elf (out ++ lead) b with
      | error exit =>
        have hnone := argumentEnd_error crates elf hh
        have hone : selectedConversions [convSpec cv] = [convSpec cv] := by
          simp [selectedConversions, convSpec_ne_percent]
        cases hcvs : convs ps with
        | nil => simp [hone, argumentsBehind]
        | cons cv' cvs => simp [hone, argumentsBehind, hkind, hnone]
      | ok r =>
        have hleft := argumentEnd_ok crates elf hh
        have ih := runTokens_selects_iff ps [] r.1 r.2
        have hcons (run : List Str) : selectedConversions (convSpec cv :: run) = (cv :: convs ps).map convSpec ↔
            selectedConversions run = (convs ps).map convSpec := by
          simp [selectedConversions, convSpec_ne_percent]
        simp only [hcons, ih]
        cases hcvs : convs ps with
        | nil => simp [argumentsBehind]
        | cons cv' cvs => rw [List.dropLast_cons_cons, argumentsBehind_cons crates elf hkind hleft]

end

/-! A value every handler reads: all types have one whose bytes are a single
zero. -/

theorem writeLeb128Unsigned_zero {w : Nat} (hw : 8 ≤ w) : writeLeb128Unsigned hw 0 = [0] := by
  obtain ⟨room, hroom, -⟩ := pow_maxBufSize hw
  have hloop : leb128UnsignedLoop (maxBufSize w) (0 : BitVec w) = some [0] := by
    rw [hroom, leb128UnsignedLoop]
    simp
  exact Option.get_of_eq_some _ hloop

theorem writeLeb128Signed_zero : writeLeb128Signed (w := 64) (by decide) 0 = [0] := rfl

/-- The image whose string table is one empty string. -/
def emptyString : ElfMetadata := ⟨1, [0], []⟩

theorem exists_zero {p : Platform} {T : ArgType} (h : T.loggable) :
    ∃ (a : Arg p) (x : Argument p), a.type = T ∧ makeArg a = some x ∧ x.wire = [0] := by
  have empty : (Argument.stringPointer (p := p) ⟨[], by simp, by simp⟩).wire = [0] := by
    rw [wire_stringPointer]; rfl
  cases T with
  | integral t =>
    have hr : t.InRange p 0 := by
      simp only [IntType.InRange]
      split
      · omega
      split
      · have := Int.pow_pos (n := 2) (m := t.bits p - 1) (by decide)
        omega
      · have := Int.pow_pos (n := 2) (m := t.bits p) (by decide)
        omega
    by_cases hs : t.isSigned p
    · exact ⟨.integral t 0 hr, .signedInteger 0, rfl, by simp [makeArg, hs], writeLeb128Signed_zero⟩
    · exact ⟨.integral t 0 hr, .unsignedInteger 0, rfl, by simp [makeArg, hs],
        writeLeb128Unsigned_zero (by decide)⟩
  | charPtr => exact ⟨.charPtr ⟨[], by simp, by simp⟩, _, rfl, rfl, empty⟩
  | stringLike => exact ⟨.stringLike ⟨[], by simp, by simp⟩, _, rfl, rfl, empty⟩
  | dataPtr => exact ⟨.dataPtr 0, _, rfl, rfl, writeLeb128Unsigned_zero p.eight_le_pointerBits⟩
  | internedString => exact ⟨.internedString 0, _, rfl, rfl, writeLeb128Unsigned_zero p.eight_le_pointerBits⟩
  | barePtr => cases h
  | other => cases h

theorem exists_args {p : Platform} : ∀ {types : List ArgType}, (∀ T ∈ types, T.loggable) →
    ∃ (args : List (Arg p)) (arguments : List (Argument p)), args.map Arg.type = types ∧
      buildArgs args = some arguments ∧ ∀ x ∈ arguments, x.wire = [0]
  | [], _ => ⟨[], [], rfl, rfl, by simp⟩
  | T :: types, h => by
    obtain ⟨a, x, hT, hx, hwire⟩ := exists_zero (p := p) (h T List.mem_cons_self)
    obtain ⟨args, arguments, ht, hb, hzero⟩ := exists_args (p := p) fun T hT => h T (List.mem_cons_of_mem _ hT)
    refine ⟨a :: args, x :: arguments, by rw [List.map_cons, hT, ht], ?_, List.forall_mem_cons.mpr ⟨hwire, hzero⟩⟩
    rw [buildArgs_cons, hx, hb]
    rfl

theorem handler_zero (kind : Kind) (hk : kind ≠ .percent) (out : Str) (rest : Bytes) :
    ∃ out', kind.handler Crates.reference emptyString out (0 :: rest) = .ok (out', rest) := by
  have hu : Crates.reference.readUnsigned (0 :: rest) = some (0, rest) := rfl
  have hs : Crates.reference.readSigned (0 :: rest) = some (0, rest) := rfl
  cases kind with
  | str => exact ⟨_, rfl⟩
  | signed => exact ⟨_, by rw [Kind.handler, formatSigned_eq, hs]⟩
  | unsigned => exact ⟨_, by rw [Kind.handler, formatUnsigned, formatNumber_eq, hu]⟩
  | octal => exact ⟨_, by rw [Kind.handler, formatOctal, formatNumber_eq, hu]⟩
  | hex => exact ⟨_, by rw [Kind.handler, formatHex, formatNumber_eq, hu]⟩
  | pointer => exact ⟨_, by rw [Kind.handler, formatPointer, formatNumber_eq, hu]⟩
  | interned => exact ⟨_, by rw [Kind.handler, formatInterned_eq, hu]; rfl⟩
  | percent => exact absurd rfl hk
  | char => exact ⟨_, by rw [Kind.handler, formatChar_eq, hu]; rfl⟩

/-- With those values the host runs into the first `%i`. -/
theorem runTokens_zero {p : Platform} : ∀ (ps : List Piece) {types : List ArgType},
    List.Forall₂ (fun cv T => cv.accepts p T = true) (convs ps) types → (∀ T ∈ types, T.loggable) →
    (∃ size, .int size .i ∈ convs ps) →
    ∃ (args : List (Arg p)) (arguments : List (Argument p)), args.map Arg.type = types ∧
      buildArgs args = some arguments ∧ ∀ lead out, (runTokens Crates.reference emptyString
        (pieceTokens lead ps).2 (pieceTokens lead ps).1 out (argumentBytes arguments)).2 =
          .error (.err (.invalidFormatSpecifier '%')) := by
  intro ps
  induction ps with
  | nil => intro _ _ _ hex; obtain ⟨_, h⟩ := hex; cases h
  | cons q ps ih =>
    intro types hacc hl hi
    cases q with
    | lit c hc =>
      obtain ⟨args, arguments, ht, hb, hrun⟩ := ih hacc hl hi
      exact ⟨args, arguments, ht, hb, fun lead out => hrun (lead ++ [c]) out⟩
    | percent =>
      obtain ⟨args, arguments, ht, hb, hrun⟩ := ih hacc hl hi
      exact ⟨args, arguments, ht, hb, fun lead out => hrun [] (out ++ lead ++ ['%'])⟩
    | conv cv =>
      cases types with
      | nil => cases hacc
      | cons T types =>
        rw [convs_conv, List.forall₂_cons] at hacc
        cases hkind : convKind cv with
        | none =>
          -- the scan ends here, whatever the arguments
          obtain ⟨args, arguments, ht, hb, -⟩ := exists_args (p := p) hl
          refine ⟨args, arguments, ht, hb, fun lead out => ?_⟩
          simp only [pieceTokens, hkind, runTokens, Ending.result]
        | some kind =>
          obtain ⟨a, x, hT, hx, hwire⟩ := exists_zero (hl T List.mem_cons_self)
          have hi' : ∃ size, .int size .i ∈ convs ps := by
            obtain ⟨size, hmem⟩ := hi
            rcases List.mem_cons.mp hmem with rfl | hmem
            · cases hkind
            · exact ⟨size, hmem⟩
          obtain ⟨args, arguments, ht, hb, hrun⟩ := ih hacc.2 (fun T hT => hl T (List.mem_cons_of_mem _ hT)) hi'
          refine ⟨a :: args, x :: arguments, by rw [List.map_cons, hT, ht],
            by rw [buildArgs_cons, hx, hb]; rfl, fun lead out => ?_⟩
          have hk : kind ≠ .percent := by
            intro heq
            subst heq
            cases cv with
            | int size letter => cases letter <;> cases hkind
            | _ => cases hkind
          obtain ⟨out', hh⟩ := handler_zero kind hk (out ++ lead) (argumentBytes arguments)
          simp only [pieceTokens, hkind, runTokens, argumentBytes_cons, hwire, List.singleton_append, hh]
          exact hrun [] out'

/-- The host renders a format of these argument types: whatever the values, it
meets no unknown specifier, and the entries it selects are the conversions in
order, all of them unless it stops at an argument that cannot be rendered. -/
def RendersConversions (p : Platform) (fmt : List Char) (types : List ArgType) : Prop :=
  ∀ (crates : Crates) (elf : ElfMetadata) (args : List (Arg p)) (arguments : List (Argument p)),
    crates.Documented → args.map Arg.type = types → buildArgs args = some arguments →
    let run := formatLoop crates elf fmt [] (argumentBytes arguments)
    (∀ c, run.2 ≠ .error (.err (.invalidFormatSpecifier c))) ∧
    (selectedConversions run.1 = (conversions fmt).map convSpec ∨
      StopsAtArgument crates elf (conversions fmt) (argumentBytes arguments) run)

/-- On these argument bytes the entries selected are all the conversions. -/
def SelectsConversions (crates : Crates) (elf : ElfMetadata) (fmt : List Char) (b : Bytes) : Prop :=
  let run := formatLoop crates elf fmt [] b
  (∀ c, run.2 ≠ .error (.err (.invalidFormatSpecifier c))) ∧
    selectedConversions run.1 = (conversions fmt).map convSpec

/-- **Everything accepted can be rendered**, exactly where no conversion is
    `%i`; and the entries selected are then all the conversions exactly where no
    argument but the last conversion's stops the run. -/
theorem renders_conversions_iff (p : Platform) (fmt : List Char) (types : List ArgType)
    (hascii : Utf8.IsAscii fmt) (haccepts : formatValidator p fmt types = true)
    (hlog : ∀ T ∈ types, T.loggable) :
    (RendersConversions p fmt types ↔ ∀ size, .int size .i ∉ conversions fmt) ∧
    ∀ (crates : Crates) (elf : ElfMetadata) (b : Bytes), SelectsConversions crates elf fmt b ↔
      (∀ size, .int size .i ∉ conversions fmt) ∧
        (argumentsBehind crates elf (conversions fmt).dropLast b).isSome := by
  obtain ⟨ps, rfl, hconvs, hacc⟩ := accepted_pieces haccepts
  simp only [RendersConversions, SelectsConversions, formatLoop_eq, tokenize_ascii hascii, hconvs]
  have hknown (hi : ∀ size, .int size .i ∉ convs ps) : ∀ cv ∈ convs ps, convKind cv ≠ none := by
    intro cv hcv hnone
    obtain ⟨size, rfl⟩ := convKind_none.mp hnone
    exact hi size hcv
  refine ⟨⟨fun h size hi => ?_, fun hi crates elf args arguments _ _ _ => ⟨fun c => ?_, ?_⟩⟩,
    fun crates elf b => ⟨fun h => ?_, fun h => ⟨fun c => ?_, ?_⟩⟩⟩
  · obtain ⟨args, arguments, ht, hb, hrun⟩ := runTokens_zero (p := p) ps hacc hlog ⟨size, hi⟩
    exact (h _ emptyString args arguments Crates.reference_documented ht hb).1 '%' (hrun [] [])
  · obtain ⟨rest, hend⟩ := pieceTokens_ending ps [] (hknown hi)
    rw [hend]
    exact runTokens_ne_unknown crates elf rest c _ _ _
  · exact runTokens_stops crates elf ps [] [] _ (hknown hi)
  · exact (runTokens_selects_iff crates elf ps [] [] b).mp h.2
  · obtain ⟨rest, hend⟩ := pieceTokens_ending ps [] (hknown h.1)
    rw [hend]
    exact runTokens_ne_unknown crates elf rest c _ _ _
  · exact (runTokens_selects_iff crates elf ps [] [] b).mpr h

theorem renders_conversions_hd :
    RendersConversions ⟨true, true, true⟩ "n=%hd %s".toList [.integral .short, .charPtr] :=
  (renders_conversions_iff _ _ _ (by decide) (by decide) (by decide)).1.mpr fun size => by cases size <;> decide

/-- `%i` is accepted for an `int`, and unknown to the host. -/
theorem accepted_percent_i_fails :
    ¬∀ (p : Platform) (fmt : List Char) (types : List ArgType), Utf8.IsAscii fmt →
      formatValidator p fmt types = true → (∀ T ∈ types, T.loggable) → RendersConversions p fmt types := by
  intro h
  have hi := h ⟨true, true, true⟩ "%i".toList [.integral .int] (by decide) (by decide) (by decide)
  obtain ⟨hrun, -⟩ := hi Crates.reference emptyString [.integral .int 7 (by decide)] [.signedInteger 7]
    Crates.reference_documented rfl rfl
  apply hrun '%'
  rw [formatLoop_eq, show "%i".toList = text [.conv (.int .default .i)] from rfl, tokenize_ascii (by decide)]
  rfl

end Postform
