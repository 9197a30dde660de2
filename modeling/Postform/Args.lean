import Mathlib.Algebra.Order.Ring.Int
import Mathlib.Data.List.Basic

/- The arguments of a log call and how `make_arg` packs them. The argument
   types are the C++ types the library tells apart: the integral types, the
   pointers by what they convert to, the interned string, and class types that
   convert to `const char*`. An `Arg` is a value of one of them; it carries the
   range of its type, so a value the type cannot hold cannot be built. -/
namespace Postform

/-- What the target's compiler and ABI decide: the signedness of `char` and
`wchar_t`, and whether `long` and pointers have 64 bits or 32. -/
structure Platform where
  charIsSigned : Bool
  wcharIsSigned : Bool
  lp64 : Bool
  deriving DecidableEq, Repr

/-- `sizeof(long)` and `sizeof(void*)`. -/
def Platform.longSize (p : Platform) : Nat := if p.lp64 then 8 else 4

/-- The width of `uintptr_t`. -/
def Platform.pointerBits (p : Platform) : Nat := 8 * p.longSize

/-- The integral types. -/
inductive IntType where
  | bool | char | schar | uchar | char8 | char16 | char32 | wchar
  | short | ushort | int | uint | long | ulong | llong | ullong
  deriving DecidableEq, Repr

/-- `sizeof(T)`. -/
def IntType.size (p : Platform) : IntType → Nat
  | .bool | .char | .schar | .uchar | .char8 => 1
  | .char16 | .short | .ushort => 2
  | .char32 | .wchar | .int | .uint => 4
  | .long | .ulong => p.longSize
  | .llong | .ullong => 8

/-- `std::is_signed_v<T>`. -/
def IntType.isSigned (p : Platform) : IntType → Bool
  | .char => p.charIsSigned
  | .wchar => p.wcharIsSigned
  | .schar | .short | .int | .long | .llong => true
  | .bool | .uchar | .char8 | .char16 | .char32 | .ushort | .uint | .ulong | .ullong => false

def IntType.bits (p : Platform) (t : IntType) : Nat := 8 * t.size p

/-- The values of the type. -/
def IntType.InRange (p : Platform) (t : IntType) (v : Int) : Prop :=
  if t = .bool then 0 ≤ v ∧ v ≤ 1
  else if t.isSigned p then -2 ^ (t.bits p - 1) ≤ v ∧ v < 2 ^ (t.bits p - 1)
  else 0 ≤ v ∧ v < 2 ^ t.bits p

instance (p : Platform) (t : IntType) (v : Int) : Decidable (t.InRange p v) := by
  unfold IntType.InRange; infer_instance

/-- The types an argument can have. `barePtr` is a pointer that does not
convert to `const void*` (to a function or to something volatile),
`stringLike` a class type with a conversion to `const char*`. -/
inductive ArgType where
  | integral (t : IntType)
  | charPtr
  | dataPtr
  | barePtr
  | internedString
  | stringLike
  | other
  deriving DecidableEq, Repr

namespace ArgType

/-- `std::is_integral_v<T>`. -/
def isIntegral : ArgType → Bool
  | .integral _ => true
  | _ => false

/-- `std::is_integral_v<T> && std::is_signed_v<T>`. -/
def isSignedIntegral (p : Platform) : ArgType → Bool
  | .integral t => t.isSigned p
  | _ => false

/-- `std::is_integral_v<T> && std::is_unsigned_v<T>`. -/
def isUnsignedIntegral (p : Platform) : ArgType → Bool
  | .integral t => !t.isSigned p
  | _ => false

/-- `std::is_convertible_v<T, const char*>`. -/
def convertsToCharPtr : ArgType → Bool
  | .charPtr | .stringLike => true
  | _ => false

/-- `std::is_convertible_v<T, const void*>`. -/
def convertsToVoidPtr : ArgType → Bool
  | .charPtr | .dataPtr | .stringLike => true
  | _ => false

/-- `std::is_pointer_v<T>`. -/
def isPointer : ArgType → Bool
  | .charPtr | .dataPtr | .barePtr => true
  | _ => false

/-- `std::is_same_v<T, InternedString>`. -/
def isInternedString : ArgType → Bool
  | .internedString => true
  | _ => false

/-- `T` is one of `signed char`, `unsigned char`, `char`. -/
def isChar : ArgType → Bool
  | .integral .schar | .integral .uchar | .integral .char => true
  | _ => false

/-- `sizeof(T)` of an integral type; the size of the others is never asked. -/
def size (p : Platform) : ArgType → Nat
  | .integral t => t.size p
  | _ => p.longSize

end ArgType

/-- A NUL-terminated string, without its NUL. Its size, the NUL included, is a
`uint32_t`, which is what `write` takes. -/
structure CString where
  bytes : List UInt8
  noNul : 0 ∉ bytes
  fits : bytes.length + 1 < 2 ^ 32
  deriving DecidableEq, Repr

/-- An argument: a value of one of the argument types. -/
inductive Arg (p : Platform) where
  | integral (t : IntType) (value : Int) (inRange : t.InRange p value)
  | charPtr (str : CString)
  | dataPtr (address : BitVec p.pointerBits)
  | barePtr (address : BitVec p.pointerBits)
  | internedString (address : BitVec p.pointerBits)
  | stringLike (str : CString)
  | other

def Arg.type {p : Platform} : Arg p → ArgType
  | .integral t _ _ => .integral t
  | .charPtr _ => .charPtr
  | .dataPtr _ => .dataPtr
  | .barePtr _ => .barePtr
  | .internedString _ => .internedString
  | .stringLike _ => .stringLike
  | .other => .other

/-- The tagged union `Argument`. -/
inductive Argument (p : Platform) where
  | unsignedInteger (unsignedLongLong : BitVec 64)
  | signedInteger (signedLongLong : BitVec 64)
  | stringPointer (strPtr : CString)
  | voidPtr (voidPtr : BitVec p.pointerBits)
  | internedString (str : BitVec p.pointerBits)
  deriving DecidableEq

/-- The overload set `make_arg`; `none` where no overload takes the type, so
that the call does not compile. -/
def makeArg {p : Platform} : Arg p → Option (Argument p)
  | .integral t v _ =>
    if t.isSigned p then some (.signedInteger (BitVec.ofInt 64 v))
    else some (.unsignedInteger (BitVec.ofInt 64 v))
  | .charPtr s => some (.stringPointer s)
  | .stringLike s => some (.stringPointer s)
  | .dataPtr a => some (.voidPtr a)
  | .internedString a => some (.internedString a)
  | .barePtr _ => none
  | .other => none

def buildArgs {p : Platform} (args : List (Arg p)) : Option (List (Argument p)) := args.mapM makeArg

/-- `make_arg` has an overload for the type. -/
def ArgType.loggable (t : ArgType) : Bool := t.isIntegral || t.convertsToVoidPtr || t.isInternedString

theorem makeArg_isSome {p : Platform} (a : Arg p) : (makeArg a).isSome = a.type.loggable := by
  cases a with
  | integral t v h => simp only [makeArg]; split <;> rfl
  | _ => rfl

theorem makeArg_of_loggable {p : Platform} {a : Arg p} (h : a.type.loggable) : ∃ x, makeArg a = some x :=
  Option.isSome_iff_exists.mp (by rw [makeArg_isSome, h])

theorem buildArgs_cons {p : Platform} (a : Arg p) (args : List (Arg p)) :
    buildArgs (a :: args) = (makeArg a).bind fun x => (buildArgs args).map (x :: ·) := by
  simp only [buildArgs, List.mapM_cons]
  cases makeArg a <;> cases List.mapM makeArg args <;> rfl

theorem buildArgs_cons_some {p : Platform} {a : Arg p} {args : List (Arg p)} {arguments : List (Argument p)}
    (h : buildArgs (a :: args) = some arguments) :
    ∃ x xs, makeArg a = some x ∧ buildArgs args = some xs ∧ arguments = x :: xs := by
  rw [buildArgs_cons] at h
  obtain ⟨x, hx, h⟩ := Option.bind_eq_some_iff.mp h
  obtain ⟨xs, hxs, rfl⟩ := Option.map_eq_some_iff.mp h
  exact ⟨x, xs, hx, hxs, rfl⟩

theorem buildArgs_length {p : Platform} {args : List (Arg p)} {arguments : List (Argument p)}
    (h : buildArgs args = some arguments) : arguments.length = args.length := by
  induction args generalizing arguments with
  | nil => cases h; rfl
  | cons a args ih =>
    obtain ⟨x, xs, -, hxs, rfl⟩ := buildArgs_cons_some h
    rw [List.length_cons, List.length_cons, ih hxs]

/-- Every value of an integral type is a value of a 64-bit type of the same
signedness, so `make_arg` loses nothing. -/
theorem IntType.InRange.bounds {p : Platform} {t : IntType} {v : Int} (h : t.InRange p v) :
    -2 ^ 63 ≤ v ∧ v < 2 ^ 64 ∧ (t.isSigned p → v < 2 ^ 63) ∧ (t.isSigned p = false → 0 ≤ v) := by
  obtain ⟨c, w, l⟩ := p
  cases t <;> cases c <;> cases w <;> cases l <;>
    simp [IntType.InRange, IntType.isSigned, IntType.bits, IntType.size, Platform.longSize] at h ⊢ <;>
    omega

end Postform
