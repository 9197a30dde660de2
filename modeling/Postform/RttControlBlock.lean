import Postform.Lib.Layout
import Postform.Lib.Memory
import Postform.RttTransport

/- The RTT control block in the memory of a 32-bit target: a header, the up
   channels and the down channels, laid out as the compiler lays out
   `ControlBlock`, `Header` and `Channel`. What the standard library makes of an
   array of no elements is left open.

   A field of a channel is a word (`wordAt`), and no two of them overlap
   (`words_apart`). -/
namespace Postform.Rtt

open Layout Memory

def uint8 : Extent := scalar 0
def uint32 : Extent := scalar 2

/-- A pointer, and an atomic of 32 bits, of the target. -/
def pointer : Extent := scalar 2
def atomic32 : Extent := scalar 2

inductive ChannelField where
  | name | buffer | size | write | read | flags
  deriving DecidableEq, Repr

inductive HeaderField where
  | id | maxUpChannels | maxDownChannels
  deriving DecidableEq, Repr

inductive BlockField where
  | header | upChannels | downChannels
  deriving DecidableEq, Repr

/-- `Channel`. -/
def channelFields : Fields ChannelField :=
  [(.name, pointer), (.buffer, pointer), (.size, uint32), (.write, atomic32), (.read, atomic32), (.flags, atomic32)]

/-- `Header`. -/
def headerFields : Fields HeaderField :=
  [(.id, uint8.array 16), (.maxUpChannels, uint32), (.maxDownChannels, uint32)]

/-- `std::array`. -/
def stdArray (empty element : Extent) (n : Nat) : Extent := if n = 0 then empty else element.array n

/-- `ControlBlock<UP_CHANNELS, DOWN_CHANNELS>`, where an array of no channels is
`empty`. -/
def controlBlockFields (empty : Extent) (upChannels downChannels : Nat) : Fields BlockField :=
  [(.header, struct headerFields), (.upChannels, stdArray empty (struct channelFields) upChannels),
    (.downChannels, stdArray empty (struct channelFields) downChannels)]

/-- A control block where the linker put it. -/
structure ControlBlock where
  upChannels : Nat
  downChannels : Nat
  empty : Extent
  address : Nat
  aligned : (struct (controlBlockFields empty upChannels downChannels)).align ∣ address
  fits : address + (struct (controlBlockFields empty upChannels downChannels)).size ≤ 2 ^ 32

/-- `_SEGGER_RTT` of the app, at the start of its RAM. An array of no elements
takes a byte in libstdc++. -/
def seggerRtt : ControlBlock where
  upChannels := 1
  downChannels := 0
  empty := uint8
  address := 0x20000000
  aligned := by decide
  fits := by decide

/-- The words of the app's RAM. -/
def AppRam (x : Nat) : Prop := 4 ∣ x ∧ 0x20000000 ≤ x ∧ x + 4 ≤ 0x20000000 + 20 * 1024

instance : DecidablePred AppRam := fun _ => inferInstanceAs (Decidable (_ ∧ _ ∧ _))

/-- A channel of a block. -/
inductive Place where
  | up (i : Nat)
  | down (j : Nat)
  deriving DecidableEq, Repr

/-- The array that the channel is in, and its index there. -/
def Place.array : Place → BlockField
  | .up _ => .upChannels
  | .down _ => .downChannels

def Place.index : Place → Nat
  | .up i => i
  | .down j => j

namespace ControlBlock

def fields (b : ControlBlock) : Fields BlockField := controlBlockFields b.empty b.upChannels b.downChannels

/-- The length of the array. -/
def count (b : ControlBlock) : Place → Nat
  | .up _ => b.upChannels
  | .down _ => b.downChannels

/-- The block has the channel. -/
def Has (b : ControlBlock) (p : Place) : Prop := p.index < b.count p

/-- The offset of the channel. -/
def offset (b : ControlBlock) (p : Place) : Nat :=
  offsetOf b.fields p.array + p.index * (struct channelFields).size

/-- The address of a field of the channel. -/
def wordAt (b : ControlBlock) (p : Place) (f : ChannelField) : Nat :=
  b.address + b.offset p + offsetOf channelFields f

/-- The value of a field of the channel. -/
def field (b : ControlBlock) (memory : Contents) (p : Place) (f : ChannelField) : Nat :=
  loadWord 4 memory (b.wordAt p f)

end ControlBlock

/-- The enumerators of `Flags`. -/
def Flags.value : Flags → Nat
  | .blockIfFull => 2
  | .noBlockTrim => 1

/-! The layout. -/

theorem size_channel : (struct channelFields).size = 24 := rfl

theorem channelFields_nodup : (channelFields.map Prod.fst).Nodup := by decide

theorem mem_channelFields (f : ChannelField) : (f, scalar 2) ∈ channelFields := by
  unfold channelFields
  cases f <;> simp [pointer, uint32, atomic32]

theorem stdArray_of_pos (empty element : Extent) {n : Nat} (h : 0 < n) : stdArray empty element n = element.array n :=
  if_neg (Nat.pos_iff_ne_zero.mp h)

variable {b : ControlBlock} {p q : Place} {f g : ChannelField}

namespace ControlBlock

theorem fields_nodup (b : ControlBlock) : (b.fields.map Prod.fst).Nodup := by
  show [BlockField.header, .upChannels, .downChannels].Nodup
  decide

theorem mem_array (h : b.Has p) : (p.array, (struct channelFields).array (b.count p)) ∈ b.fields := by
  have hpos : 0 < b.count p := Nat.zero_lt_of_lt h
  rw [← stdArray_of_pos b.empty _ hpos]
  unfold fields controlBlockFields
  cases p <;> simp [Place.array, count]

theorem index_le (h : b.Has p) : p.index * 24 + 24 ≤ ((struct channelFields).array (b.count p)).size :=
  element_le (struct channelFields) h

theorem channel_le (h : b.Has p) : b.offset p + 24 ≤ (struct b.fields).size := by
  have hfield := offsetOf_add_le b.fields_nodup (mem_array h)
  have helement := index_le h
  unfold offset
  rw [size_channel]
  omega

theorem channels_apart (hp : b.Has p) (hq : b.Has q) (hne : p ≠ q) :
    b.offset p + 24 ≤ b.offset q ∨ b.offset q + 24 ≤ b.offset p := by
  unfold offset
  rw [size_channel]
  by_cases harray : p.array = q.array
  · have hindex : p.index ≠ q.index := by
      intro heq
      apply hne
      cases p <;> cases q <;> simp_all [Place.array, Place.index]
    have happart : p.index * 24 + 24 ≤ q.index * 24 ∨ q.index * 24 + 24 ≤ p.index * 24 :=
      elements_apart (struct channelFields) hindex
    rw [harray]
    omega
  · have happart := fields_apart b.fields_nodup (mem_array hp) (mem_array hq) harray
    have hpin := index_le hp
    have hqin := index_le hq
    omega

theorem word_le (f : ChannelField) : offsetOf channelFields f + 4 ≤ 24 :=
  offsetOf_add_le channelFields_nodup (mem_channelFields f)

/-- **The words of a block's channels do not overlap.** -/
theorem words_apart (hp : b.Has p) (hq : b.Has q) (hne : (p, f) ≠ (q, g)) :
    b.wordAt p f + 4 ≤ b.wordAt q g ∨ b.wordAt q g + 4 ≤ b.wordAt p f := by
  have hf := word_le f
  have hg := word_le g
  unfold wordAt
  by_cases hpq : p = q
  · have hfg : f ≠ g := fun heq => hne (by rw [hpq, heq])
    have happart : offsetOf channelFields f + 4 ≤ offsetOf channelFields g ∨
        offsetOf channelFields g + 4 ≤ offsetOf channelFields f :=
      fields_apart channelFields_nodup (mem_channelFields f) (mem_channelFields g) hfg
    rw [hpq]
    omega
  · have happart := channels_apart hp hq hpq
    omega

theorem wordAt_add_le (hp : b.Has p) (f : ChannelField) :
    b.wordAt p f + 4 ≤ b.address + (struct b.fields).size := by
  have hchannel := channel_le hp
  have hf := word_le f
  unfold wordAt
  omega

/-! Where the channels are. -/

theorem offsetOf_upChannels (h : 0 < b.upChannels) : offsetOf b.fields .upChannels = 24 := by
  unfold fields controlBlockFields
  rw [stdArray_of_pos _ _ h]
  show alignUp (alignUp 0 4 + 24) 4 = 24
  rfl

theorem wordAt_up {i : Nat} (h : i < b.upChannels) :
    b.wordAt (.up i) .flags = b.address + 24 + 24 * i + 20 := by
  unfold wordAt offset
  show b.address + (offsetOf b.fields .upChannels + i * 24) + 20 = _
  rw [offsetOf_upChannels (Nat.zero_lt_of_lt h)]
  omega

end ControlBlock

end Postform.Rtt
