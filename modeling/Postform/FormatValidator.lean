import Mathlib.Data.List.Forall2
import Postform.Args

/- The compile-time format validator. `formatValidator` walks the argument
   types: for each it searches the format for the next conversion, with a
   nested first match over the conversion letters and their size prefixes, and
   hands the rest of the format on; when no type is left a second scanner
   checks that the tail has no conversion. A format is the list of its
   characters without the terminating NUL, `&fmt[i]` is `fmt.drop i`. -/
namespace Postform

/-- Whether `pattern` is at the start of `str`; past its end `str` reads as a
NUL, which no pattern contains. -/
def strStartsWith : List Char → List Char → Bool
  | _, [] => true
  | [], _ :: _ => false
  | c :: str, x :: pattern => c == x && strStartsWith str pattern

structure SizeSpecHandler where
  sizeSpec : List Char
  matcher : Nat → Bool

def defaultSizeHandler : SizeSpecHandler := ⟨[], fun _ => true⟩

def integerSizeHandlers (p : Platform) : List SizeSpecHandler :=
  [⟨[], fun size => size == 4⟩,
   ⟨"l".toList, fun size => size == p.longSize⟩,
   ⟨"ll".toList, fun size => size == 8⟩,
   ⟨"hh".toList, fun size => size == 1⟩,
   ⟨"h".toList, fun size => size == 2⟩]

structure FormatSpecHandler where
  sizeHandlers : List SizeSpecHandler
  formatSpec : List Char
  matcher : Bool

/-- The handlers for an argument of type `T`. -/
def formatSpecHandlers (p : Platform) (T : ArgType) : List FormatSpecHandler :=
  [⟨[defaultSizeHandler], "s".toList, T.convertsToCharPtr⟩,
   ⟨integerSizeHandlers p, "d".toList, T.isSignedIntegral p⟩,
   ⟨integerSizeHandlers p, "i".toList, T.isSignedIntegral p⟩,
   ⟨integerSizeHandlers p, "u".toList, T.isUnsignedIntegral p⟩,
   ⟨integerSizeHandlers p, "o".toList, T.isIntegral⟩,
   ⟨integerSizeHandlers p, "x".toList, T.isIntegral⟩,
   ⟨[defaultSizeHandler], "p".toList, T.isPointer⟩,
   ⟨[defaultSizeHandler], "k".toList, T.isInternedString⟩,
   ⟨[defaultSizeHandler], "c".toList, T.isChar⟩]

/-- The nested loop over handlers and sizes at `&fmt[i]`: the first pair that
matches the text. -/
def findHandler (handlers : List FormatSpecHandler) (fmt : List Char) :
    Option (FormatSpecHandler × SizeSpecHandler) :=
  handlers.findSome? fun f => f.sizeHandlers.findSome? fun s =>
    if strStartsWith fmt s.sizeSpec && strStartsWith (fmt.drop s.sizeSpec.length) f.formatSpec then
      some (f, s)
    else none

/-- The scanner for a format with an argument pending, from index `i` on:
whether the next conversion takes a `T`, and `*position`. -/
def formatValidatorSingleArgument (p : Platform) (T : ArgType) : List Char → Nat → Bool × Nat
  | [], i => (false, i)
  | '%' :: '%' :: fmt, i => formatValidatorSingleArgument p T fmt (i + 2)
  | '%' :: fmt, i =>
    match findHandler (formatSpecHandlers p T) fmt with
    | some (f, s) =>
      (f.matcher && s.matcher (T.size p), i + 1 + s.sizeSpec.length + f.formatSpec.length)
    | none => (false, 0)
  | _ :: fmt, i => formatValidatorSingleArgument p T fmt (i + 1)

/-- The scanner for a format with no argument left. -/
def formatValidatorTail : List Char → Bool
  | [] => true
  | '%' :: '%' :: fmt => formatValidatorTail fmt
  | '%' :: _ => false
  | _ :: fmt => formatValidatorTail fmt

def formatValidator (p : Platform) : List Char → List ArgType → Bool
  | fmt, [] => formatValidatorTail fmt
  | fmt, T :: args =>
    let (accepted, position) := formatValidatorSingleArgument p T fmt 0
    if accepted then formatValidator p (fmt.drop position) args else false

/-! The grammar: what a format is made of. -/

/-- The size prefixes. -/
inductive Size where
  | default | l | ll | hh | h
  deriving DecidableEq, Repr

def Size.text : Size → List Char
  | .default => []
  | .l => ['l']
  | .ll => ['l', 'l']
  | .hh => ['h', 'h']
  | .h => ['h']

/-- The letters that take a size prefix. -/
inductive IntLetter where
  | d | i | u | o | x
  deriving DecidableEq, Repr

def IntLetter.text : IntLetter → Char
  | .d => 'd'
  | .i => 'i'
  | .u => 'u'
  | .o => 'o'
  | .x => 'x'

/-- A conversion, without its `%`. -/
inductive Conv where
  | s | p | k | c
  | int (size : Size) (letter : IntLetter)
  deriving DecidableEq, Repr

def Conv.text : Conv → List Char
  | .s => ['s']
  | .p => ['p']
  | .k => ['k']
  | .c => ['c']
  | .int size letter => size.text ++ [letter.text]

/-- The size's `sizeof` predicate. -/
def Size.accepts (p : Platform) : Size → Nat → Bool
  | .default, n => n == 4
  | .l, n => n == p.longSize
  | .ll, n => n == 8
  | .hh, n => n == 1
  | .h, n => n == 2

/-- The letter's type predicate. -/
def IntLetter.accepts (p : Platform) : IntLetter → ArgType → Bool
  | .d, T | .i, T => T.isSignedIntegral p
  | .u, T => T.isUnsignedIntegral p
  | .o, T | .x, T => T.isIntegral

/-- Whether the conversion takes an argument of the type. -/
def Conv.accepts (p : Platform) : Conv → ArgType → Bool
  | .s, T => T.convertsToCharPtr
  | .p, T => T.isPointer
  | .k, T => T.isInternedString
  | .c, T => T.isChar
  | .int size letter, T => letter.accepts p T && size.accepts p (T.size p)

/-- A format is a sequence of literal characters, `%%` pairs and conversions. -/
inductive Piece where
  | lit (c : Char) (notPercent : c ≠ '%')
  | percent
  | conv (conv : Conv)
  deriving DecidableEq

def Piece.text : Piece → List Char
  | .lit c _ => [c]
  | .percent => ['%', '%']
  | .conv cv => '%' :: cv.text

def text (ps : List Piece) : List Char := ps.flatMap Piece.text

def Piece.conv? : Piece → Option Conv
  | .conv cv => some cv
  | _ => none

/-- The conversions of a format, in order. -/
def convs (ps : List Piece) : List Conv := ps.filterMap Piece.conv?

@[simp] theorem text_nil : text [] = [] := rfl
@[simp] theorem text_cons (q : Piece) (ps : List Piece) : text (q :: ps) = q.text ++ text ps := rfl
@[simp] theorem convs_nil : convs [] = [] := rfl
@[simp] theorem convs_lit (c : Char) (h : c ≠ '%') (ps : List Piece) : convs (.lit c h :: ps) = convs ps := rfl
@[simp] theorem convs_percent (ps : List Piece) : convs (.percent :: ps) = convs ps := rfl
@[simp] theorem convs_conv (cv : Conv) (ps : List Piece) : convs (.conv cv :: ps) = cv :: convs ps := rfl
@[simp] theorem text_append (ps qs : List Piece) : text (ps ++ qs) = text ps ++ text qs := by
  simp [text]
@[simp] theorem convs_append (ps qs : List Piece) : convs (ps ++ qs) = convs ps ++ convs qs := by
  simp [convs]

/-! The spellings of the conversions. -/

/-- All conversions, in the order the validator tries them. -/
def convTable : List Conv :=
  .s :: ([IntLetter.d, .i, .u, .o, .x].flatMap fun letter =>
    [Size.default, .l, .ll, .hh, .h].map fun size => .int size letter) ++ [.p, .k, .c]

theorem mem_convTable (cv : Conv) : cv ∈ convTable := by
  cases cv with
  | int size letter => cases size <;> cases letter <;> decide
  | _ => decide

theorem convTable_prefixFree : ∀ a ∈ convTable, ∀ b ∈ convTable, a.text.isPrefixOf b.text = true → a = b := by
  decide

theorem Conv.text_inj {cv cv' : Conv} {rest rest' : List Char} (h : cv.text ++ rest = cv'.text ++ rest') : cv = cv' := by
  have hcv : cv.text <+: cv'.text ++ rest' := ⟨rest, h⟩
  rcases List.prefix_or_prefix_of_prefix hcv (List.prefix_append cv'.text rest') with hle | hle
  · exact convTable_prefixFree _ (mem_convTable cv) _ (mem_convTable cv') (List.isPrefixOf_iff_prefix.mpr hle)
  · exact (convTable_prefixFree _ (mem_convTable cv') _ (mem_convTable cv) (List.isPrefixOf_iff_prefix.mpr hle)).symm

/-! What the validator accepts. -/

theorem strStartsWith_iff {pattern str : List Char} :
    strStartsWith str pattern = true ↔ ∃ rest, str = pattern ++ rest := by
  induction pattern generalizing str with
  | nil => simp [strStartsWith]
  | cons x pattern ih =>
    cases str with
    | nil => simp [strStartsWith]
    | cons c str => simp [strStartsWith, ih]

/-- What the nested loop returns for a conversion `cv`: a pair that spells it
and whose matchers are its predicates. -/
def Spells (p : Platform) (T : ArgType) (cv : Conv) (fs : FormatSpecHandler × SizeSpecHandler) : Prop :=
  fs.2.sizeSpec ++ fs.1.formatSpec = cv.text ∧
    (fs.1.matcher && fs.2.matcher (T.size p)) = cv.accepts p T

theorem spells_of_mem {p : Platform} {T : ArgType} {f : FormatSpecHandler} {s : SizeSpecHandler}
    (hf : f ∈ formatSpecHandlers p T) (hs : s ∈ f.sizeHandlers) : ∃ cv, Spells p T cv (f, s) := by
  have int (l : IntLetter) (m : Bool) (hm : m = l.accepts p T) (hs : s ∈ integerSizeHandlers p) :
      ∃ cv, Spells p T cv (⟨integerSizeHandlers p, [l.text], m⟩, s) := by
    subst hm
    simp only [integerSizeHandlers, List.mem_cons, List.not_mem_nil, or_false] at hs
    rcases hs with rfl | rfl | rfl | rfl | rfl
    · exact ⟨.int .default l, rfl, rfl⟩
    · exact ⟨.int .l l, rfl, rfl⟩
    · exact ⟨.int .ll l, rfl, rfl⟩
    · exact ⟨.int .hh l, rfl, rfl⟩
    · exact ⟨.int .h l, rfl, rfl⟩
  have plain (cv : Conv) (hs : s ∈ [defaultSizeHandler]) :
      Spells p T cv (⟨[defaultSizeHandler], cv.text, cv.accepts p T⟩, s) := by
    rw [List.mem_singleton] at hs
    subst hs
    exact ⟨rfl, by simp [defaultSizeHandler]⟩
  simp only [formatSpecHandlers, List.mem_cons, List.not_mem_nil, or_false] at hf
  rcases hf with rfl | rfl | rfl | rfl | rfl | rfl | rfl | rfl | rfl
  · exact ⟨.s, plain .s hs⟩
  · exact int .d _ rfl hs
  · exact int .i _ rfl hs
  · exact int .u _ rfl hs
  · exact int .o _ rfl hs
  · exact int .x _ rfl hs
  · exact ⟨.p, plain .p hs⟩
  · exact ⟨.k, plain .k hs⟩
  · exact ⟨.c, plain .c hs⟩

theorem findHandler_some {p : Platform} {T : ArgType} {fmt : List Char}
    {fs : FormatSpecHandler × SizeSpecHandler}
    (h : findHandler (formatSpecHandlers p T) fmt = some fs) :
    ∃ cv rest, fmt = cv.text ++ rest ∧ Spells p T cv fs := by
  obtain ⟨f, hf, h⟩ := List.exists_of_findSome?_eq_some h
  obtain ⟨s, hs, h⟩ := List.exists_of_findSome?_eq_some h
  split at h
  · next hc =>
    simp only [Option.some.injEq] at h
    subst h
    rw [Bool.and_eq_true, strStartsWith_iff, strStartsWith_iff] at hc
    obtain ⟨⟨r1, rfl⟩, r2, h2⟩ := hc
    rw [List.drop_left] at h2
    subst h2
    obtain ⟨cv, hcv⟩ := spells_of_mem hf hs
    exact ⟨cv, r2, by rw [← hcv.1, List.append_assoc], hcv⟩
  · cases h

theorem exists_spells (p : Platform) (T : ArgType) (cv : Conv) :
    ∃ f ∈ formatSpecHandlers p T, ∃ s ∈ f.sizeHandlers, s.sizeSpec ++ f.formatSpec = cv.text := by
  have letter (l : IntLetter) : ⟨integerSizeHandlers p, [l.text], l.accepts p T⟩ ∈ formatSpecHandlers p T := by
    cases l with
    | d => exact .tail _ (.head _)
    | i => exact .tail _ (.tail _ (.head _))
    | u => exact .tail _ (.tail _ (.tail _ (.head _)))
    | o => exact .tail _ (.tail _ (.tail _ (.tail _ (.head _))))
    | x => exact .tail _ (.tail _ (.tail _ (.tail _ (.tail _ (.head _)))))
  have size (sz : Size) : ∃ s ∈ integerSizeHandlers p, s.sizeSpec = sz.text := by
    cases sz with
    | default => exact ⟨_, .head _, rfl⟩
    | l => exact ⟨_, .tail _ (.head _), rfl⟩
    | ll => exact ⟨_, .tail _ (.tail _ (.head _)), rfl⟩
    | hh => exact ⟨_, .tail _ (.tail _ (.tail _ (.head _))), rfl⟩
    | h => exact ⟨_, .tail _ (.tail _ (.tail _ (.tail _ (.head _)))), rfl⟩
  have plain {f : FormatSpecHandler} (hf : f ∈ formatSpecHandlers p T) (hs : f.sizeHandlers = [defaultSizeHandler])
      (htext : f.formatSpec = cv.text) :
      ∃ f ∈ formatSpecHandlers p T, ∃ s ∈ f.sizeHandlers, s.sizeSpec ++ f.formatSpec = cv.text :=
    ⟨f, hf, defaultSizeHandler, by rw [hs]; exact .head _, htext⟩
  cases cv with
  | int sz l =>
    obtain ⟨s, hs, htext⟩ := size sz
    exact ⟨_, letter l, s, hs, by rw [htext]; rfl⟩
  | s => exact plain (.head _) rfl rfl
  | p => exact plain (.tail _ (.tail _ (.tail _ (.tail _ (.tail _ (.tail _ (.head _))))))) rfl rfl
  | k => exact plain (.tail _ (.tail _ (.tail _ (.tail _ (.tail _ (.tail _ (.tail _ (.head _)))))))) rfl rfl
  | c => exact plain (.tail _ (.tail _ (.tail _ (.tail _ (.tail _ (.tail _ (.tail _ (.tail _ (.head _))))))))) rfl rfl

/-- The nested loop finds the pair of the conversion the text starts with. -/
theorem findHandler_text (p : Platform) (T : ArgType) (cv : Conv) (rest : List Char) :
    ∃ fs, findHandler (formatSpecHandlers p T) (cv.text ++ rest) = some fs ∧ Spells p T cv fs := by
  obtain ⟨f, hf, s, hs, htext⟩ := exists_spells p T cv
  have hsize : strStartsWith (cv.text ++ rest) s.sizeSpec = true :=
    strStartsWith_iff.mpr ⟨f.formatSpec ++ rest, by rw [← htext, List.append_assoc]⟩
  have hletter : strStartsWith ((cv.text ++ rest).drop s.sizeSpec.length) f.formatSpec = true :=
    strStartsWith_iff.mpr ⟨rest, by rw [← htext, List.append_assoc, List.drop_left]⟩
  have hsome : (findHandler (formatSpecHandlers p T) (cv.text ++ rest)).isSome := by
    rw [findHandler, List.findSome?_isSome_iff]
    refine ⟨f, hf, List.findSome?_isSome_iff.mpr ⟨s, hs, ?_⟩⟩
    rw [hsize, hletter]
    rfl
  obtain ⟨fs, hfs⟩ := Option.isSome_iff_exists.mp hsome
  obtain ⟨cv', rest', heq, hspells⟩ := findHandler_some hfs
  have hcv := Conv.text_inj heq
  subst hcv
  exact ⟨fs, hfs, hspells⟩

theorem Conv.text_ne_percent (cv : Conv) (rest fmt : List Char) : cv.text ++ rest ≠ '%' :: fmt := by
  cases cv with
  | int size letter => cases size <;> cases letter <;> simp [Conv.text, Size.text, IntLetter.text]
  | _ => simp [Conv.text]

theorem single_lead (p : Platform) (T : ArgType) : ∀ (lead : List Piece) (rest : List Char) (i : Nat),
    convs lead = [] → formatValidatorSingleArgument p T (text lead ++ rest) i =
      formatValidatorSingleArgument p T rest (i + (text lead).length)
  | [], _, _, _ => by simp
  | .lit c hc :: lead, rest, i, h => by
    have ih := single_lead p T lead rest (i + 1) h
    simp only [text_cons, Piece.text, List.cons_append, List.nil_append, List.length_cons]
    rw [formatValidatorSingleArgument, ih]
    · congr 1; omega
    · exact fun _ h => absurd h hc
    · exact hc
  | .percent :: lead, rest, i, h => by
    have ih := single_lead p T lead rest (i + 2) h
    simp only [text_cons, Piece.text, List.cons_append, List.nil_append, List.length_cons]
    rw [formatValidatorSingleArgument, ih]
    congr 1; omega
  | .conv cv :: lead, _, _, h => by simp at h

theorem single_conv (p : Platform) (T : ArgType) (cv : Conv) (rest : List Char) (i : Nat) :
    formatValidatorSingleArgument p T ('%' :: (cv.text ++ rest)) i =
      (cv.accepts p T, i + 1 + cv.text.length) := by
  obtain ⟨⟨f, s⟩, hfind, hs⟩ := findHandler_text p T cv rest
  rw [formatValidatorSingleArgument]
  · simp only [hfind]
    rw [hs.2, ← hs.1, List.length_append]
    simp only [Prod.mk.injEq, true_and]
    omega
  · exact fun fmt => Conv.text_ne_percent cv rest fmt

/-- When the first scanner accepts, it stopped behind a conversion that takes
the type. -/
theorem single_accepts {p : Platform} {T : ArgType} : ∀ {fmt : List Char} {i pos : Nat},
    formatValidatorSingleArgument p T fmt i = (true, pos) →
    ∃ (lead : List Piece) (cv : Conv) (rest : List Char), fmt = text lead ++ '%' :: (cv.text ++ rest) ∧ convs lead = [] ∧
      cv.accepts p T = true ∧ pos = i + (text lead ++ '%' :: cv.text).length := by
  intro fmt i
  fun_induction formatValidatorSingleArgument p T fmt i with
  | case1 i => intro pos h; simp at h
  | case2 fmt i ih =>
    intro pos h
    obtain ⟨lead, cv, rest, rfl, hl, ha, rfl⟩ := ih h
    refine ⟨.percent :: lead, cv, rest, rfl, hl, ha, ?_⟩
    simp [Piece.text]; omega
  | case3 fmt i hne f s hfind =>
    intro pos h
    obtain ⟨cv, rest, rfl, hs⟩ := findHandler_some hfind
    simp only [Prod.mk.injEq] at h
    obtain ⟨hm, rfl⟩ := h
    refine ⟨[], cv, rest, rfl, rfl, ?_, ?_⟩
    · rw [← hs.2]; exact hm
    · rw [← hs.1]; simp; omega
  | case4 fmt i hne hfind => intro pos h; simp at h
  | case5 c fmt i h1 h2 ih =>
    intro pos h
    obtain ⟨lead, cv, rest, rfl, hl, ha, rfl⟩ := ih h
    refine ⟨.lit c (by simpa using h2) :: lead, cv, rest, rfl, hl, ha, ?_⟩
    simp [Piece.text]; omega

theorem formatValidatorTail_iff {fmt : List Char} :
    formatValidatorTail fmt = true ↔ ∃ ps, fmt = text ps ∧ convs ps = [] := by
  constructor
  · fun_induction formatValidatorTail fmt with
    | case1 => exact fun _ => ⟨[], rfl, rfl⟩
    | case2 fmt ih =>
      intro h
      obtain ⟨ps, rfl, hc⟩ := ih h
      exact ⟨.percent :: ps, rfl, hc⟩
    | case3 => intro h; cases h
    | case4 c fmt h1 h2 ih =>
      intro h
      obtain ⟨ps, rfl, hc⟩ := ih h
      exact ⟨.lit c (by simpa using h2) :: ps, rfl, hc⟩
  · intro hex
    obtain ⟨ps, rfl, hc⟩ := hex
    induction ps with
    | nil => rfl
    | cons q ps ih =>
      cases q with
      | lit c hn =>
        simp only [text_cons, Piece.text, List.cons_append, List.nil_append]
        rw [formatValidatorTail]
        · exact ih hc
        · exact fun _ h => absurd h hn
        · exact hn
      | percent => exact ih hc
      | conv cv => simp at hc

theorem convs_eq_cons {ps : List Piece} {cv : Conv} {cvs : List Conv} (h : convs ps = cv :: cvs) :
    ∃ lead ps', ps = lead ++ .conv cv :: ps' ∧ convs lead = [] ∧ convs ps' = cvs := by
  induction ps with
  | nil => simp at h
  | cons q ps ih =>
    cases q with
    | conv cv' =>
      simp only [convs_conv, List.cons.injEq] at h
      obtain ⟨rfl, rfl⟩ := h
      exact ⟨[], ps, rfl, rfl, rfl⟩
    | lit c hn =>
      obtain ⟨lead, ps', rfl, hl, hp⟩ := ih h
      exact ⟨.lit c hn :: lead, ps', rfl, hl, hp⟩
    | percent =>
      obtain ⟨lead, ps', rfl, hl, hp⟩ := ih h
      exact ⟨.percent :: lead, ps', rfl, hl, hp⟩

/-- The validator accepts what the grammar generates with as many conversions
as arguments, each taking the type at its place. -/
theorem formatValidator_iff (p : Platform) : ∀ (types : List ArgType) (fmt : List Char),
    formatValidator p fmt types = true ↔
      ∃ ps, fmt = text ps ∧ List.Forall₂ (fun cv T => cv.accepts p T = true) (convs ps) types
  | [], fmt => by
    rw [formatValidator, formatValidatorTail_iff]
    simp only [List.forall₂_nil_right_iff]
  | T :: types, fmt => by
    constructor
    · intro h
      rw [formatValidator] at h
      obtain ⟨acc, pos, hsingle⟩ : ∃ acc pos, formatValidatorSingleArgument p T fmt 0 = (acc, pos) :=
        ⟨_, _, rfl⟩
      simp only [hsingle] at h
      split at h
      · next hacc =>
        subst hacc
        obtain ⟨lead, cv, rest, rfl, hl, ha, rfl⟩ := single_accepts hsingle
        rw [← List.cons_append, ← List.append_assoc, Nat.zero_add, List.drop_left] at h
        obtain ⟨ps, rfl, hps⟩ := (formatValidator_iff p types rest).mp h
        refine ⟨lead ++ .conv cv :: ps, by simp [Piece.text], ?_⟩
        simp only [convs_append, hl, List.nil_append, convs_conv]
        exact .cons ha hps
      · cases h
    · intro hex
      obtain ⟨ps, rfl, hps⟩ := hex
      obtain ⟨cv, cvs, hcv⟩ : ∃ cv cvs, convs ps = cv :: cvs := by
        cases hc : convs ps with
        | nil => rw [hc] at hps; cases hps
        | cons cv cvs => exact ⟨cv, cvs, rfl⟩
      obtain ⟨lead, ps', rfl, hl, rfl⟩ := convs_eq_cons hcv
      rw [hcv, List.forall₂_cons] at hps
      have hrest := (formatValidator_iff p types (text ps')).mpr ⟨ps', rfl, hps.2⟩
      have hsingle : formatValidatorSingleArgument p T (text (lead ++ .conv cv :: ps')) 0 =
          (true, (text lead ++ '%' :: cv.text).length) := by
        rw [text_append, text_cons, single_lead p T lead _ 0 hl, Piece.text, List.cons_append,
          single_conv, hps.1]
        simp; omega
      have hdrop : (text (lead ++ .conv cv :: ps')).drop (text lead ++ '%' :: cv.text).length =
          text ps' := by
        rw [text_append, text_cons, Piece.text, ← List.append_assoc, List.drop_left]
      rw [formatValidator, hsingle]
      simp only [hdrop, if_true, hrest]

/-! The conversions of a format are a function of it. -/

/-- The conversion the text starts with. -/
def convAt (fmt : List Char) : Option Conv := convTable.find? fun cv => strStartsWith fmt cv.text

/-- The conversions of a format from left to right, up to the first `%` that
starts none; the first `skip` characters are passed over. -/
def conversionsFrom : Nat → List Char → List Conv
  | _, [] => []
  | skip + 1, _ :: fmt => conversionsFrom skip fmt
  | 0, '%' :: '%' :: fmt => conversionsFrom 1 ('%' :: fmt)
  | 0, '%' :: fmt =>
    match convAt fmt with
    | some cv => cv :: conversionsFrom cv.text.length fmt
    | none => []
  | 0, _ :: fmt => conversionsFrom 0 fmt

def conversions (fmt : List Char) : List Conv := conversionsFrom 0 fmt

theorem convAt_text (cv : Conv) (rest : List Char) : convAt (cv.text ++ rest) = some cv := by
  have hsome : (convAt (cv.text ++ rest)).isSome := by
    rw [convAt, List.find?_isSome]
    exact ⟨cv, mem_convTable cv, strStartsWith_iff.mpr ⟨rest, rfl⟩⟩
  obtain ⟨cv', hcv'⟩ := Option.isSome_iff_exists.mp hsome
  obtain ⟨rest', heq⟩ := strStartsWith_iff.mp
    (List.find?_some (p := fun cv' : Conv => strStartsWith (cv.text ++ rest) cv'.text) hcv')
  rw [hcv', Conv.text_inj heq]

theorem conversionsFrom_skip (lead rest : List Char) :
    conversionsFrom lead.length (lead ++ rest) = conversionsFrom 0 rest := by
  induction lead with
  | nil => rfl
  | cons c lead ih => rw [List.length_cons, List.cons_append, conversionsFrom, ih]

theorem conversions_text : ∀ ps : List Piece, conversions (text ps) = convs ps
  | [] => rfl
  | .lit c hc :: ps => by
    have ih := conversions_text ps
    simp only [text_cons, Piece.text, List.cons_append, List.nil_append, convs_lit]
    rw [← ih, conversions, conversionsFrom]
    · rfl
    · exact fun _ h => absurd h hc
    · exact hc
  | .percent :: ps => by
    have ih := conversions_text ps
    simp only [text_cons, Piece.text, List.cons_append, List.nil_append, convs_percent]
    rw [← ih, conversions, conversionsFrom, conversionsFrom]
    rfl
  | .conv cv :: ps => by
    have ih := conversions_text ps
    simp only [text_cons, Piece.text, List.cons_append, convs_conv]
    rw [← ih, conversions, conversionsFrom]
    · simp only [convAt_text, conversionsFrom_skip]
      rfl
    · exact fun fmt => Conv.text_ne_percent cv (text ps) fmt

theorem accepted_pieces {p : Platform} {fmt : List Char} {types : List ArgType}
    (h : formatValidator p fmt types = true) :
    ∃ ps, fmt = text ps ∧ conversions fmt = convs ps ∧
      List.Forall₂ (fun cv T => cv.accepts p T = true) (convs ps) types := by
  obtain ⟨ps, rfl, hps⟩ := (formatValidator_iff p types fmt).mp h
  exact ⟨ps, rfl, conversions_text ps, hps⟩

end Postform
