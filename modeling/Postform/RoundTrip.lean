import Postform.Alignment
import Postform.Image
import Postform.SerialDecoder
import Postform.SerialLogger

/- From a log macro to the action. A `Call` is an execution of a macro that the
   compiler let through, with the text that `printf` prints for each of its
   arguments. The logger sends the frame of its message, and the message is
   decoded back piece by piece: the timestamp and the address are two groups,
   the address finds file, line, format and level in the image, and over the
   argument bytes every handler prints its text (`runTokens_printf`).

   The frame decodes because a message never ends in a long run of non-zero
   bytes: a string brings its NUL, and the groups between two strings are 160
   bytes at most (`not_endsFull`). -/
namespace Postform

open Wire Host

variable {p : Platform}

/-- What `printf` makes of a format whose conversions print `texts`; the first
`skip` characters are passed over. -/
def printfFrom : Nat → Str → List Str → Str
  | _, [], _ => []
  | skip + 1, _ :: fmt, texts => printfFrom skip fmt texts
  | 0, '%' :: '%' :: fmt, texts => '%' :: printfFrom 1 ('%' :: fmt) texts
  | 0, '%' :: fmt, texts =>
    match convAt fmt with
    | some cv => texts.headD [] ++ printfFrom cv.text.length fmt texts.tail
    | none => []
  | 0, c :: fmt, texts => c :: printfFrom 0 fmt texts

def printf (fmt : Str) (texts : List Str) : Str := printfFrom 0 fmt texts

/-- What `printf` prints for an argument under a conversion. -/
inductive Prints (image : Image) : Conv → Arg p → Str → Prop where
  | integral {cv : Conv} {t : IntType} {v : Int} {h : t.InRange p v} {text : Str} (printed : printfText p t v cv = some text)
      (sign : (∃ size, cv = .int size .d) ∨ 0 ≤ v) : Prints image cv (.integral t v h) text
  | charPtr (str : CString) (text : Str) (utf8 : str.bytes = Utf8.encode text) : Prints image .s (.charPtr str) text
  | stringLike (str : CString) (text : Str) (utf8 : str.bytes = Utf8.encode text) :
      Prints image .s (.stringLike str) text
  | dataPtr (address : BitVec p.pointerBits) :
      Prints image .p (.dataPtr address) ('0' :: 'x' :: Nat.toDigits 16 address.toNat)
  | internedString (address : BitVec p.pointerBits) (mode : InternMode) (text : Str)
      (interned : image.Interned mode address.toNat (Utf8.encode text)) (noNul : '\x00' ∉ text) :
      Prints image .k (.internedString address) text

/-- An execution of a macro, with the text of each argument. The address is
that of the string the macro interned, `mLevel` the level the logger then has. -/
structure Call (p : Platform) (image : Image) where
  site : CallSite
  mLevel : LogLevel
  passes : mLevel.index ≤ site.logMacro.level.index
  address : BitVec p.pointerBits
  interned : image.Interned site.logMacro.internMode address.toNat (Utf8.encode site.internedString)
  timestamp : BitVec 64
  args : List (Arg p × Str)
  few : args.length ≤ 14
  accepted : formatValidator p site.fmt (args.map (·.1.type)) = true
  prints : List.Forall₂ (fun cv a => Prints image cv a.1 a.2) (conversions site.fmt) args

namespace Call

variable {image : Image}

/-- `(logger)->log(level, InternedString{pfmt_interned_string}, …)`. -/
def ops (call : Call p image) : List (WriterOp Unit Unit) :=
  match Postform.log call.mLevel call.site.logMacro.level (.internedString call.address :: call.args.map Prod.fst) with
  | some arguments => vlogOps call.timestamp arguments
  | none => []

/-- The log the host is to make of the call. -/
def hostLog (call : Call p image) : Host.Log where
  timestamp := (UInt64.ofNat call.timestamp.toNat).toFloat / image.timestampFreq.toFloat
  level := call.site.logMacro.hostLevel
  message := printf call.site.fmt (call.args.map Prod.snd)
  fileName := call.site.file
  lineNumber := call.site.line

end Call

/-! `printf` over the pieces of a format. -/

theorem printfFrom_skip (texts : List Str) (lead fmt : Str) :
    printfFrom lead.length (lead ++ fmt) texts = printf fmt texts := by
  induction lead with
  | nil => rfl
  | cons c lead ih => rw [List.length_cons, List.cons_append, printfFrom, ih]

theorem printf_lit {c : Char} (hc : c ≠ '%') (fmt : Str) (texts : List Str) :
    printf (c :: fmt) texts = c :: printf fmt texts := by
  rw [printf, printfFrom]
  · rfl
  · exact fun _ h => absurd h hc
  · exact hc

theorem printf_percent (fmt : Str) (texts : List Str) : printf ('%' :: '%' :: fmt) texts = '%' :: printf fmt texts := by
  rw [printf, printfFrom, printfFrom]
  rfl

theorem printf_conv (cv : Conv) (fmt text : Str) (texts : List Str) :
    printf ('%' :: (cv.text ++ fmt)) (text :: texts) = text ++ printf fmt texts := by
  rw [printf, printfFrom]
  · simp only [convAt_text, printfFrom_skip, List.headD_cons, List.tail_cons]
  · exact fun rest => Conv.text_ne_percent cv fmt rest

/-! A handler prints its text. -/

section
variable {crates : Crates} (hcrates : crates.Documented) {image : Image}
include hcrates

theorem formatNumber_address (address : BitVec p.pointerBits) (render : Nat → Str) (out : Str) (rest : Bytes) :
    formatNumber crates render out (writeLeb128Unsigned p.eight_le_pointerBits address ++ rest) =
      .ok (out ++ render address.toNat, rest) := by
  rw [formatNumber_eq, hcrates.readUnsigned, readU64_word p.eight_le_pointerBits p.pointerBits_le]

/-- **One argument.** What `vlog` writes for it is turned into the text `printf`
    prints, and nothing else is taken. -/
theorem handler_prints {cv : Conv} {a : Arg p} {text : Str} (hprints : Prints image cv a text)
    (hacc : cv.accepts p a.type = true) : ∃ x kind, makeArg a = some x ∧ convKind cv = some kind ∧
      ∀ out rest, kind.handler crates image.elfMetadata out (x.wire ++ rest) = .ok (out ++ text, rest) := by
  cases hprints with
  | @integral _ t v h _ hprinted hsign =>
    obtain ⟨x, hx⟩ := makeArg_of_loggable (a := Arg.integral t v h) rfl
    have hrenders : Renders cv (.integral t v h) text := by
      rcases hsign with ⟨size, rfl⟩ | h0
      · cases hprinted
        simp only [Conv.accepts, IntLetter.accepts, Arg.type, ArgType.isSignedIntegral, Bool.and_eq_true] at hacc
        exact renders_d hacc.1 size
      · exact renders_nonneg h0 hacc hprinted
    obtain ⟨kind, hkind⟩ : ∃ kind, convKind cv = some kind := by
      rw [← Option.ne_none_iff_exists', ne_eq, convKind_none]
      intro hex
      obtain ⟨size, rfl⟩ := hex
      cases hprinted
    exact ⟨x, kind, hx, hkind, (renders_iff hkind).mp hrenders crates image.elfMetadata x hcrates hx⟩
  | charPtr str text utf8 =>
    refine ⟨_, _, rfl, rfl, fun out rest => ?_⟩
    rw [wire_stringPointer, Kind.handler, List.append_assoc, List.singleton_append, formatStr_string, utf8,
      Utf8.fromUtf8_encode]
  | stringLike str text utf8 =>
    refine ⟨_, _, rfl, rfl, fun out rest => ?_⟩
    rw [wire_stringPointer, Kind.handler, List.append_assoc, List.singleton_append, formatStr_string, utf8,
      Utf8.fromUtf8_encode]
  | dataPtr address =>
    refine ⟨_, _, rfl, rfl, fun out rest => ?_⟩
    rw [Kind.handler, formatPointer, Argument.wire, formatNumber_address hcrates]
  | internedString address mode text hinterned hnul =>
    refine ⟨_, _, rfl, rfl, fun out rest => ?_⟩
    rw [Kind.handler, formatInterned_eq, Argument.wire, hcrates.readUnsigned,
      readU64_word p.eight_le_pointerBits p.pointerBits_le]
    simp only [recoverInternedString_interned hinterned (Utf8.zero_notMem_encode hnul), Utf8.fromUtf8Lossy_encode]

/-- **All arguments.** Over the pieces of a format the run of the handlers
    prints what `printf` prints. -/
theorem runTokens_printf : ∀ (ps : List Piece) {args : List (Arg p × Str)},
    List.Forall₂ (fun cv a => Prints image cv a.1 a.2) (convs ps) args →
    List.Forall₂ (fun cv T => cv.accepts p T = true) (convs ps) (args.map (·.1.type)) →
    ∃ arguments, buildArgs (args.map Prod.fst) = some arguments ∧ ∀ lead out,
      (runTokens crates image.elfMetadata (pieceTokens lead ps).2 (pieceTokens lead ps).1 out
        (argumentBytes arguments)).2 = .ok (out ++ lead ++ printf (text ps) (args.map Prod.snd))
  | [], args, hprints, _ => by
    rw [convs_nil, List.forall₂_nil_left_iff] at hprints
    subst hprints
    exact ⟨[], rfl, fun lead out => by simp [pieceTokens, runTokens, Ending.result, printf, printfFrom]⟩
  | .lit c hc :: ps, args, hprints, hacc => by
    obtain ⟨arguments, hb, hrun⟩ := runTokens_printf ps hprints hacc
    refine ⟨arguments, hb, fun lead out => ?_⟩
    rw [pieceTokens, hrun]
    simp [Piece.text, printf_lit hc]
  | .percent :: ps, args, hprints, hacc => by
    obtain ⟨arguments, hb, hrun⟩ := runTokens_printf ps hprints hacc
    refine ⟨arguments, hb, fun lead out => ?_⟩
    simp only [pieceTokens, runTokens, Kind.handler, formatPercent, Pure.pure, Except.pure, hrun]
    simp [Piece.text, printf_percent]
  | .conv cv :: ps, [], hprints, _ => by cases hprints
  | .conv cv :: ps, (a, text) :: args, hprints, hacc => by
    rw [convs_conv, List.forall₂_cons] at hprints
    rw [convs_conv, List.map_cons, List.forall₂_cons] at hacc
    obtain ⟨x, kind, hx, hkind, hhandler⟩ := handler_prints hcrates hprints.1 hacc.1
    obtain ⟨arguments, hb, hrun⟩ := runTokens_printf ps hprints.2 hacc.2
    refine ⟨x :: arguments, by rw [List.map_cons, buildArgs_cons, hx, hb]; rfl, fun lead out => ?_⟩
    simp only [pieceTokens, hkind, runTokens, argumentBytes_cons, hhandler, hrun]
    simp [Piece.text, printf_conv]

end

/-! A message never ends in a long run of non-zero bytes. -/

theorem writeLeb128Unsigned_length {w : Nat} (hw : 8 ≤ w) (hw64 : w ≤ 64) (v : BitVec w) :
    (writeLeb128Unsigned hw v).length ≤ 10 := by
  obtain ⟨-, -, hlen⟩ := writeLeb128Unsigned_spec hw v
  rw [maxBufSize] at hlen
  omega

/-- An argument adds ten bytes to the run, or ends it with its NUL. -/
theorem trailingRun_wire (message : Bytes) (x : Argument p) :
    Rcobs.trailingRun (message ++ x.wire) ≤ Rcobs.trailingRun message + 10 := by
  have group {g : Bytes} (hg : g.length ≤ 10) : Rcobs.trailingRun (message ++ g) ≤ Rcobs.trailingRun message + 10 :=
    Nat.le_trans (Rcobs.trailingRun_append_le message g) (by omega)
  cases x with
  | stringPointer s =>
    rw [wire_stringPointer, ← List.append_assoc, Rcobs.trailingRun_zero]
    exact Nat.zero_le _
  | unsignedInteger v => exact group (writeLeb128Unsigned_length (by decide) (Nat.le_refl 64) v)
  | signedInteger v => exact group (writeLeb128Signed_spec (by decide) v).2.2
  | voidPtr a => exact group (writeLeb128Unsigned_length p.eight_le_pointerBits p.pointerBits_le a)
  | internedString a => exact group (writeLeb128Unsigned_length p.eight_le_pointerBits p.pointerBits_le a)

theorem trailingRun_argumentBytes (arguments : List (Argument p)) (message : Bytes) :
    Rcobs.trailingRun (message ++ argumentBytes arguments) ≤ Rcobs.trailingRun message + 10 * arguments.length := by
  induction arguments generalizing message with
  | nil => simp
  | cons x arguments ih =>
    have hx := trailingRun_wire message x
    rw [argumentBytes_cons, ← List.append_assoc, List.length_cons]
    calc Rcobs.trailingRun (message ++ x.wire ++ argumentBytes arguments)
        ≤ Rcobs.trailingRun (message ++ x.wire) + 10 * arguments.length := ih (message ++ x.wire)
      _ ≤ Rcobs.trailingRun message + 10 * (arguments.length + 1) := by omega

/-- **The bound.** Up to 24 arguments make no run of 254. -/
theorem not_endsFull (timestamp : BitVec 64) {arguments : List (Argument p)} (hfew : arguments.length ≤ 24) :
    ¬EndsFull (vlogWrites timestamp arguments).flatten := by
  have hstamp : Rcobs.trailingRun (writeLeb128Unsigned (w := 64) (by decide) timestamp) ≤ 10 :=
    Nat.le_trans (Rcobs.trailingRun_le_length _) (writeLeb128Unsigned_length (by decide) (Nat.le_refl 64) timestamp)
  have hrun : Rcobs.trailingRun (vlogWrites timestamp arguments).flatten ≤ 250 := by
    rw [vlogWrites_flatten]
    calc _ ≤ Rcobs.trailingRun (writeLeb128Unsigned (w := 64) (by decide) timestamp) + 10 * arguments.length :=
          trailingRun_argumentBytes arguments _
      _ ≤ 10 + 10 * 24 := by omega
  intro hex
  obtain ⟨hpos, hdvd⟩ := hex
  have hfull := Nat.le_of_dvd hpos hdvd
  omega

/-! The whole path. -/

section
variable {crates : Crates} (hcrates : crates.Documented) {image : Image}
include hcrates

/-- **One call.** What reaches `vlog` is decoded to the log of the call. -/
theorem decode_call (call : Call p image) :
    ∃ arguments : List (Argument p), call.ops = vlogOps call.timestamp arguments ∧ arguments.length ≤ 15 ∧
      decode crates image.elfMetadata (vlogWrites call.timestamp arguments).flatten = .ok call.hostLog := by
  obtain ⟨ps, hfmt, hconvs, hacc⟩ := accepted_pieces call.accepted
  have hascii : Utf8.IsAscii (text ps) := hfmt ▸ call.site.fmtText.1
  have hnul : 0 ∉ Utf8.encode call.site.internedString :=
    zero_notMem_internedText call.site.fileText.2.2 call.site.fmtText.2.2
  obtain ⟨arguments, hb, hrun⟩ := runTokens_printf hcrates ps (hconvs ▸ call.prints) hacc
  refine ⟨.internedString call.address :: arguments, ?_, ?_, ?_⟩
  · have hlog : Postform.log call.mLevel call.site.logMacro.level (.internedString call.address :: call.args.map Prod.fst) =
        some (.internedString call.address :: arguments) := by
      rw [Postform.log, if_neg (Nat.not_lt.mpr call.passes), buildArgs_cons, hb]
      rfl
    rw [Call.ops, hlog]
  · have hlen := buildArgs_length hb
    have hfew := call.few
    rw [List.length_map] at hlen
    rw [List.length_cons]
    omega
  · have hformat : formatString crates image.elfMetadata call.site.fmt (argumentBytes arguments) =
        .ok (printf call.site.fmt (call.args.map Prod.snd)) := by
      have := hrun [] []
      rw [formatString, formatLoop_eq, hfmt, tokenize_ascii hascii, this]
      rfl
    rw [vlogWrites_flatten, argumentBytes_cons, Argument.wire, decode]
    simp only [okOr, decodeUnsigned, hcrates.readUnsigned,
      readU64_word (Nat.le_of_ble_eq_true rfl : 8 ≤ 64) (Nat.le_refl 64),
      readU64_word p.eight_le_pointerBits p.pointerBits_le, Bind.bind, Except.bind,
      recoverInternedString_interned call.interned hnul, Utf8.fromUtf8Lossy_encode,
      decodeFormatString_internedString, hformat, getLogSection_interned _ call.interned]
    rfl

theorem feedAndDo_calls : ∀ calls : List (Call p image), ∃ sent : List TransportOp,
    (∀ received, World.exec (.free received) (calls.flatMap Call.ops) = some (.free (received ++ sent))) ∧
    feedAndDo crates image.elfMetadata [] (SerialWriter.opBytes sent) =
      (calls.map fun call => .action call.hostLog, some [])
  | [] => ⟨[], fun received => by rw [List.append_nil]; rfl, rfl⟩
  | call :: calls => by
    obtain ⟨arguments, hops, hfew, hdecode⟩ := decode_call hcrates call
    obtain ⟨sent, hexec, hfeed⟩ := feedAndDo_calls calls
    refine ⟨World.frameOps (vlogWrites call.timestamp arguments).flatten ++ sent, fun received => ?_, ?_⟩
    · rw [List.flatMap_cons, hops, World.exec_append (World.exec_vlog call.timestamp arguments received), hexec,
        List.append_assoc]
    · rw [SerialWriter.opBytes_append, opBytes_frameOps,
        feedAndDo_frame crates image.elfMetadata hcrates (not_endsFull call.timestamp (by omega)) hdecode, hfeed]
      rfl

end

/-- **End to end.** Calls of the log macros one after another on one logger run
    to their end, and however the bytes its transport got are cut, the host
    calls the action on exactly the logs of the calls, in order. -/
theorem serial_round_trip (crates : Crates) (hcrates : crates.Documented) (p : Platform) (image : Image)
    (calls : List (Call p image)) : ∃ s, World.exec World.initial (calls.flatMap Call.ops) = some s ∧
      ∀ chunks : List Bytes, chunks.flatten = SerialWriter.opBytes (s.received ()) →
        feedAll crates image.elfMetadata [] chunks = (calls.map fun call => .action call.hostLog, some []) := by
  obtain ⟨sent, hexec, hfeed⟩ := feedAndDo_calls hcrates calls
  refine ⟨.free sent, hexec [], fun chunks hchunks => ?_⟩
  rw [feedAll_eq, hchunks]
  exact hfeed

theorem serial_round_trip_info : ∃ (image : Image) (call : Call ⟨true, true, true⟩ image),
    call.hostLog.message = "n=-5 %".toList ∧ call.hostLog.fileName = "a.c".toList ∧
    call.hostLog.lineNumber = 7 ∧ call.hostLog.level = .info ∧
    ∃ s, World.exec World.initial ([call, call].flatMap Call.ops) = some s ∧
      ∀ chunks : List Bytes, chunks.flatten = SerialWriter.opBytes (s.received ()) →
        feedAll Crates.reference image.elfMetadata [] chunks =
          ([.action call.hostLog, .action call.hostLog], some []) := by
  let site : CallSite := ⟨.logInfo, "a.c".toList, 7, "n=%hhd %%".toList, by decide, by decide, by decide⟩
  let image : Image := ⟨fun mode => match mode with
    | .debug => [100, 0]
    | .info => Utf8.encode site.internedString ++ [0]
    | _ => [], 1000⟩
  let call : Call ⟨true, true, true⟩ image :=
    { site := site
      mLevel := .info
      passes := by decide
      address := 2
      interned := ⟨[], [], rfl, rfl⟩
      timestamp := 77
      args := [(.integral .schar (-5) (by decide), "-5".toList)]
      few := by decide
      accepted := by decide
      prints := .cons (.integral rfl (.inl ⟨.hh, rfl⟩)) .nil }
  refine ⟨image, call, by decide, rfl, rfl, rfl, ?_⟩
  exact serial_round_trip Crates.reference Crates.reference_documented ⟨true, true, true⟩ image [call, call]

end Postform
