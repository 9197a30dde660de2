import Postform.Lib.Simulation
import Postform.RttAttach
import Postform.RttConstruct

/- The transports of a block's up channels in the memory of the target, a load or
   store at a time. `Transport` has its own write offset; the size, the buffer and
   the other offset it loads from the channel, and so does the host. The rest of
   the program stores where it likes outside the block and the buffers.

   Every channel, seen alone, is the ring of `Postform.RttTransport` (`refines`):
   no channel's stores reach another's words or buffer (`Stores.claims`,
   `claims_apart`), since the offsets stay on the ring (`Trail`). So the block
   stays what its constructor made it (`stores_confined`), and a channel in blocking
   mode is lossless whatever the others do (`block_lossless`). -/
namespace Postform.Rtt

open Function Layout Memory Runs

/-- Where a transport is: as `TargetPc`, with the loads of the size and of the
address of the buffer as steps of their own. `nextWritePtr` is the local of
`write`. -/
inductive Pc where
  | idle
  | loadSize (value : UInt8)
  | loadFlags (value : UInt8) (nextWritePtr : Nat)
  | loadRead (value : UInt8) (nextWritePtr : Nat)
  | publish (value : UInt8) (nextWritePtr : Nat)
  | loadBuffer (value : UInt8) (nextWritePtr : Nat)
  | storeByte (value : UInt8) (nextWritePtr address : Nat)
  | storeWrite
  deriving DecidableEq, Repr

/-- A transport, the host's reader of its channel, and the histories of both. -/
structure Port where
  mWritePtr : Nat
  pc : Pc
  host : HostPc
  passed : List UInt8
  copied : List UInt8

/-- The descriptors that the program has for a block. The buffers of the up channels
overlap neither the block nor one another. -/
structure Channels (b : ControlBlock) where
  up : Fin b.upChannels → ChannelDescriptor
  down : Fin b.downChannels → ChannelDescriptor
  two_le : ∀ i, 2 ≤ (up i).size
  offBlock : ∀ i, (up i).buffer + (up i).size ≤ b.address ∨ b.address + (struct b.fields).size ≤ (up i).buffer
  apart : ∀ i j, i ≠ j → (up i).buffer + (up i).size ≤ (up j).buffer ∨ (up j).buffer + (up j).size ≤ (up i).buffer

variable {b : ControlBlock}

def Channels.ring (c : Channels b) (i : Fin b.upChannels) : RingSize := ⟨(c.up i).size, c.two_le i, (c.up i).size_lt⟩

/-- The memory and the transports. -/
structure System (b : ControlBlock) where
  memory : Contents
  port : Fin b.upChannels → Port

inductive BlockLabel (b : ControlBlock) where
  | port (i : Fin b.upChannels) (a : Label)
  | others (address : Nat) (bytes : List UInt8)
  deriving DecidableEq, Repr

/-! The steps. -/

section
variable (b) (memory : Contents) (i : Nat)

/-- The store of `commit`. -/
def Port.commit (p : Port) : Contents := storeWord 4 memory (b.wordAt (.up i) .write) p.mWritePtr

/-- The next load or store of the transport's call. `getNextWritePtr` loads the size
once or twice, which makes no difference. -/
def Port.targetStep (p : Port) : Option (Contents × Port) :=
  match p.pc with
  | .idle => none
  | .loadSize value =>
    some (memory, { p with pc := .loadFlags value (getNextWritePtr (b.field memory (.up i) .size) p.mWritePtr) })
  | .loadFlags value next =>
    if b.field memory (.up i) .flags = Flags.blockIfFull.value then some (memory, { p with pc := .loadRead value next })
    else some (memory, { p with pc := .loadBuffer value next })
  | .loadRead value next =>
    if b.field memory (.up i) .read = next then some (memory, { p with pc := .publish value next })
    else some (memory, { p with pc := .loadBuffer value next })
  | .publish value next => some (p.commit b memory i, { p with pc := .loadRead value next })
  | .loadBuffer value next =>
    some (memory, { p with pc := .storeByte value next ((b.field memory (.up i) .buffer + p.mWritePtr) % 2 ^ 32) })
  | .storeByte value next address => some (store memory address [value], { p with mWritePtr := next, pc := .idle })
  | .storeWrite => some (p.commit b memory i, { p with pc := .idle })

/-- A step of the transport or of the host. -/
def Port.step (p : Port) : Label → Option (Contents × Port)
  | .callWrite value =>
    if p.pc = .idle then some (memory, { p with pc := .loadSize value, passed := p.passed ++ [value] }) else none
  | .callCommit => if p.pc = .idle then some (memory, { p with pc := .storeWrite }) else none
  | .target => p.targetStep b memory i
  | .hostLoad =>
    if p.host = .idle then
      some (memory, { p with host := .copying (b.field memory (.up i) .write) (b.field memory (.up i) .read) })
    else none
  | .hostCopy =>
    match p.host with
    | .idle => none
    | .copying seen pos =>
      if pos = seen then none
      else some (memory, { p with
        copied := p.copied ++ [memory (b.field memory (.up i) .buffer + pos)]
        host := .copying seen (nextReadPtr (b.field memory (.up i) .size) pos) })
  | .hostStore =>
    match p.host with
    | .idle => none
    | .copying _ pos => some (storeWord 4 memory (b.wordAt (.up i) .read) pos, { p with host := .idle })
  | .setFlags flags => some (storeWord 4 memory (b.wordAt (.up i) .flags) flags.value, p)

end

namespace Channels

variable (c : Channels b)

/-- The bytes of the block and of the buffers are not the rest of the program's. -/
def Free (address length : Nat) : Prop :=
  (address + length ≤ b.address ∨ b.address + (struct b.fields).size ≤ address) ∧
    ∀ i, address + length ≤ (c.up i).buffer ∨ (c.up i).buffer + (c.up i).size ≤ address

instance (address length : Nat) : Decidable (c.Free address length) := inferInstanceAs (Decidable (_ ∧ _))

def step (s : System b) : BlockLabel b → Option (System b)
  | .port i a => ((s.port i).step b s.memory i a).map fun (memory, p) => ⟨memory, update s.port i p⟩
  | .others address bytes =>
    if c.Free address bytes.length then some { s with memory := store s.memory address bytes } else none

def Steps (s : System b) (a : BlockLabel b) (t : System b) : Prop := c.step s a = some t

/-- `Transport`'s constructor. -/
def transport (memory : Contents) (i : Fin b.upChannels) : Port :=
  ⟨b.field memory (.up i) .write, .idle, .idle, [], []⟩

/-- The block is constructed, and a transport for each channel. -/
def Constructed (s : System b) : Prop :=
  ∃ memory, b.construct (List.ofFn c.up) (List.ofFn c.down) memory = some s.memory ∧ ∀ i, s.port i = transport s.memory i

end Channels

/-! One channel. -/

/-- Where the transport of the ring is. -/
def Pc.abs : Pc → TargetPc
  | .idle => .idle
  | .loadSize value | .loadFlags value _ => .loadFlags value
  | .loadRead value _ => .loadRead value
  | .publish value _ => .publish value
  | .loadBuffer value _ | .storeByte value _ _ => .storeByte value
  | .storeWrite => .storeWrite

/-- The loads of the size and of the buffer are no steps of the ring. -/
def Pc.label (pc : Pc) : Label → Option Label
  | .target =>
    match pc with
    | .loadSize _ | .loadBuffer _ _ => none
    | _ => some .target
  | a => some a

/-- What a step of the block is to channel `i`. -/
def System.label (i : Fin b.upChannels) (s : System b) : BlockLabel b → Option Label
  | .port j a => if j = i then (s.port i).pc.label a else none
  | .others _ _ => none

theorem System.label_setFlags {s : System b} {i : Fin b.upChannels} {x : BlockLabel b} {flags : Flags}
    (h : s.label i x = some (.setFlags flags)) : x = .port i (.setFlags flags) := by
  unfold System.label at h
  split at h
  · next j a =>
    split at h
    next hj =>
      subst hj
      unfold Pc.label at h
      split at h
      · split at h <;> cases h
      · cases h
        rfl
    · cases h
  · cases h

/-- The locals are what was loaded. -/
def Pc.Agrees (d : ChannelDescriptor) (mWritePtr : Nat) : Pc → Prop
  | .loadFlags _ next | .loadRead _ next | .publish _ next | .loadBuffer _ next => next = getNextWritePtr d.size mWritePtr
  | .storeByte _ next address => next = getNextWritePtr d.size mWritePtr ∧ address = d.buffer + mWritePtr
  | .idle | .loadSize _ | .storeWrite => True

namespace Channels

section
variable (c : Channels b)

/-- The channel alone, as a ring. -/
def view (memory : Contents) (i : Fin b.upChannels) (p : Port) : Machine where
  buffer k := if k < (c.up i).size then memory ((c.up i).buffer + k) else 0
  write := b.field memory (.up i) .write
  read := b.field memory (.up i) .read
  flags := if b.field memory (.up i) .flags = Flags.blockIfFull.value then .blockIfFull else .noBlockTrim
  mWritePtr := p.mWritePtr
  target := p.pc.abs
  host := p.host
  passed := p.passed
  copied := p.copied

def machine (s : System b) (i : Fin b.upChannels) : Machine := c.view s.memory i (s.port i)

/-- What holds of a channel throughout. -/
structure Keeps (memory : Contents) (i : Fin b.upChannels) (p : Port) : Prop where
  size : b.field memory (.up i) .size = (c.up i).size
  buffer : b.field memory (.up i) .buffer = (c.up i).buffer
  pc : p.pc.Agrees (c.up i) p.mWritePtr
  trail : ∃ written P, Trail (c.ring i) 0 (c.view memory i p) written P

/-- The bytes of the word, or of the buffer. -/
def InWord (b : ControlBlock) (i : Fin b.upChannels) (f : ChannelField) (x : Nat) : Prop :=
  b.wordAt (.up i) f ≤ x ∧ x < b.wordAt (.up i) f + 4

def InBuffer (i : Fin b.upChannels) (x : Nat) : Prop := (c.up i).buffer ≤ x ∧ x < (c.up i).buffer + (c.up i).size

/-- The bytes that a step may store to. -/
def Stores (i : Fin b.upChannels) : Label → Nat → Prop
  | .target, x => InWord b i .write x ∨ c.InBuffer i x
  | .hostStore, x => InWord b i .read x
  | .setFlags _, x => InWord b i .flags x
  | .callWrite _, _ | .callCommit, _ | .hostLoad, _ | .hostCopy, _ => False

/-- The bytes that a channel depends on. -/
def Claims (i : Fin b.upChannels) (x : Nat) : Prop := (∃ f, InWord b i f x) ∨ c.InBuffer i x

end

variable {c : Channels b} {memory memory' : Contents} {i j : Fin b.upChannels} {p p' : Port} {a : Label}

/-! Who stores where. -/

theorem has (i : Fin b.upChannels) : b.Has (.up i) := i.isLt

theorem Stores.claims {x : Nat} (h : c.Stores i a x) : c.Claims i x := by
  cases a with
  | target =>
    rcases h with hword | hbuffer
    · exact .inl ⟨_, hword⟩
    · exact .inr hbuffer
  | hostStore => exact .inl ⟨_, h⟩
  | setFlags flags => exact .inl ⟨_, h⟩
  | callWrite value => cases h
  | callCommit => cases h
  | hostLoad => cases h
  | hostCopy => cases h

theorem inWord_unique {f g : ChannelField} {x : Nat} (h : InWord b i f x) (h' : InWord b j g x) : i = j ∧ f = g := by
  by_cases heq : (Place.up i, f) = (Place.up j, g)
  · obtain ⟨hplace, hf⟩ := Prod.mk.inj heq
    exact ⟨Fin.ext (Place.up.inj hplace), hf⟩
  · have hapart := ControlBlock.words_apart (has i) (has j) heq
    unfold InWord at h h'
    omega

theorem not_inBuffer_of_inWord {f : ChannelField} {x : Nat} (h : InWord b i f x) : ¬c.InBuffer j x := by
  intro hbuffer
  have hin := ControlBlock.wordAt_add_le (has i) f
  have hfrom : b.address ≤ b.wordAt (.up i) f := by
    unfold ControlBlock.wordAt
    omega
  have hoff := c.offBlock j
  unfold InWord at h
  unfold InBuffer at hbuffer
  omega

/-- **No two channels depend on the same byte.** -/
theorem claims_apart {x : Nat} (h : c.Claims i x) (h' : c.Claims j x) : i = j := by
  rcases h with ⟨f, hf⟩ | hi <;> rcases h' with ⟨g, hg⟩ | hj
  · exact (inWord_unique hf hg).1
  · exact absurd hj (not_inBuffer_of_inWord hf)
  · exact absurd hi (not_inBuffer_of_inWord hg)
  · by_contra hne
    have hapart := c.apart i j hne
    unfold InBuffer at hi hj
    omega

theorem Free.not_claims {address length x : Nat} (h : c.Free address length) (hi : c.Claims i x) :
    x < address ∨ address + length ≤ x := by
  obtain ⟨hblock, hbuffers⟩ := h
  rcases hi with ⟨f, hf⟩ | hbuffer
  · have hin := ControlBlock.wordAt_add_le (has i) f
    have hfrom : b.address ≤ b.wordAt (.up i) f := by
      unfold ControlBlock.wordAt
      omega
    unfold InWord at hf
    omega
  · have hoff := hbuffers i
    unfold InBuffer at hbuffer
    omega

theorem field_congr {f : ChannelField} (h : ∀ x, InWord b i f x → memory' x = memory x) :
    b.field memory' (.up i) f = b.field memory (.up i) f := by
  unfold ControlBlock.field loadWord
  rw [load_congr]
  intro k hk
  exact h _ ⟨Nat.le_add_right _ _, by omega⟩

theorem view_congr (h : ∀ x, c.Claims i x → memory' x = memory x) : c.view memory' i p = c.view memory i p := by
  have hfield (f : ChannelField) : b.field memory' (.up i) f = b.field memory (.up i) f :=
    field_congr fun x hx => h x (.inl ⟨f, hx⟩)
  have hbuffer : (fun k => if k < (c.up i).size then memory' ((c.up i).buffer + k) else 0) =
      fun k => if k < (c.up i).size then memory ((c.up i).buffer + k) else 0 := by
    funext k
    split
    next hk => exact h _ (.inr ⟨Nat.le_add_right _ _, by omega⟩)
    · rfl
  unfold view
  rw [hfield, hfield, hfield, hbuffer]

theorem Keeps.congr (hkeeps : c.Keeps memory i p) (h : ∀ x, c.Claims i x → memory' x = memory x) :
    c.Keeps memory' i p := by
  have hfield (f : ChannelField) : b.field memory' (.up i) f = b.field memory (.up i) f :=
    field_congr fun x hx => h x (.inl ⟨f, hx⟩)
  refine ⟨?_, ?_, hkeeps.pc, ?_⟩
  · rw [hfield]
    exact hkeeps.size
  · rw [hfield]
    exact hkeeps.buffer
  · rw [view_congr h]
    exact hkeeps.trail

theorem Keeps.mWritePtr_lt (h : c.Keeps memory i p) : p.mWritePtr < (c.up i).size := by
  obtain ⟨written, P, htrail⟩ := h.trail
  exact htrail.mWritePtr_lt

/-! The stores, seen at the ring. -/

section
variable {f g : ChannelField} {value : Nat}

theorem storeWord_outside_of_not {x : Nat} (hx : ¬InWord b i f x) :
    storeWord 4 memory (b.wordAt (.up i) f) value x = memory x := by
  apply storeWord_outside
  unfold InWord at hx
  omega

theorem field_storeWord (hvalue : value < 2 ^ 32) :
    b.field (storeWord 4 memory (b.wordAt (.up i) f) value) (.up i) f = value := loadWord_storeWord hvalue

theorem field_storeWord_ne (hne : f ≠ g) :
    b.field (storeWord 4 memory (b.wordAt (.up i) f) value) (.up i) g = b.field memory (.up i) g := by
  apply field_congr
  intro x hx
  apply storeWord_outside_of_not
  intro hx'
  exact hne (inWord_unique hx' hx).2

theorem buffer_storeWord (k : Nat) :
    (c.view (storeWord 4 memory (b.wordAt (.up i) f) value) i p).buffer k = (c.view memory i p).buffer k := by
  unfold view
  simp only
  split
  next hk =>
    apply storeWord_outside_of_not
    intro hx
    exact not_inBuffer_of_inWord hx ⟨Nat.le_add_right _ _, by omega⟩
  · rfl

/-- A store to a word of the channel changes only what is loaded from the words. -/
theorem view_storeWord : c.view (storeWord 4 memory (b.wordAt (.up i) f) value) i p = { c.view memory i p with
    write := b.field (storeWord 4 memory (b.wordAt (.up i) f) value) (.up i) .write
    read := b.field (storeWord 4 memory (b.wordAt (.up i) f) value) (.up i) .read
    flags := if b.field (storeWord 4 memory (b.wordAt (.up i) f) value) (.up i) .flags = Flags.blockIfFull.value then
      .blockIfFull else .noBlockTrim } := by
  have hbuffer := funext (@buffer_storeWord b c memory i p f value)
  unfold view at hbuffer ⊢
  simp only at hbuffer ⊢
  rw [hbuffer]

theorem view_storeWrite (hvalue : value < 2 ^ 32) :
    c.view (storeWord 4 memory (b.wordAt (.up i) .write) value) i p = { c.view memory i p with write := value } := by
  rw [view_storeWord, field_storeWord hvalue, field_storeWord_ne (by decide), field_storeWord_ne (by decide)]
  rfl

theorem view_storeRead (hvalue : value < 2 ^ 32) :
    c.view (storeWord 4 memory (b.wordAt (.up i) .read) value) i p = { c.view memory i p with read := value } := by
  rw [view_storeWord, field_storeWord hvalue, field_storeWord_ne (by decide), field_storeWord_ne (by decide)]
  rfl

theorem view_storeFlags (flags : Flags) :
    c.view (storeWord 4 memory (b.wordAt (.up i) .flags) flags.value) i p =
      { c.view memory i p with flags := flags } := by
  have hvalue : flags.value < 2 ^ 32 := by cases flags <;> decide
  rw [view_storeWord, field_storeWord hvalue, field_storeWord_ne (by decide), field_storeWord_ne (by decide)]
  cases flags <;> rfl

end

theorem view_storeByte {k : Nat} (hk : k < (c.up i).size) (value : UInt8) :
    c.view (store memory ((c.up i).buffer + k) [value]) i p =
      { c.view memory i p with buffer := update (c.view memory i p).buffer k value } := by
  have hfield (f : ChannelField) :
      b.field (store memory ((c.up i).buffer + k) [value]) (.up i) f = b.field memory (.up i) f := by
    apply field_congr
    intro x hx
    apply store_outside
    have hnot := @not_inBuffer_of_inWord b c i i f x hx
    unfold InBuffer at hnot
    simp only [List.length_singleton]
    omega
  have hbuffer : (c.view (store memory ((c.up i).buffer + k) [value]) i p).buffer =
      update (c.view memory i p).buffer k value := by
    funext l
    unfold view
    simp only
    by_cases hl : l = k
    · subst hl
      rw [if_pos hk, update_self]
      exact @store_inside memory ((c.up i).buffer + l) [value] 0 Nat.zero_lt_one
    · rw [update_of_ne hl, store_outside (by simp only [List.length_singleton]; omega)]
  unfold view at hbuffer ⊢
  simp only at hbuffer
  rw [hbuffer, hfield, hfield, hfield]

/-! One step of a channel. -/

/-- **Every step stores to its own bytes only.** -/
theorem Keeps.confined (h : c.Keeps memory i p) (hstep : p.step b memory i a = some (memory', p')) {x : Nat}
    (hx : ¬c.Stores i a x) : memory' x = memory x := by
  cases a with
  | callWrite value =>
    simp only [Port.step] at hstep
    split at hstep <;> cases hstep
    rfl
  | callCommit =>
    simp only [Port.step] at hstep
    split at hstep <;> cases hstep
    rfl
  | target =>
    simp only [Port.step, Port.targetStep] at hstep
    simp only [Stores, not_or] at hx
    split at hstep
    · cases hstep
    · cases hstep
      rfl
    · split at hstep <;> cases hstep <;> rfl
    · split at hstep <;> cases hstep <;> rfl
    · cases hstep
      exact storeWord_outside_of_not hx.1
    · cases hstep
      rfl
    · next value next address hpc =>
      cases hstep
      have hagrees := h.pc
      rw [hpc] at hagrees
      obtain ⟨-, rfl⟩ := hagrees
      have hlt := h.mWritePtr_lt
      have hnot := hx.2
      apply store_outside
      unfold InBuffer at hnot
      simp only [List.length_singleton]
      omega
    · cases hstep
      exact storeWord_outside_of_not hx.1
  | hostLoad =>
    simp only [Port.step] at hstep
    split at hstep <;> cases hstep
    rfl
  | hostCopy =>
    simp only [Port.step] at hstep
    split at hstep
    · cases hstep
    · split at hstep <;> cases hstep
      rfl
  | hostStore =>
    simp only [Port.step] at hstep
    split at hstep
    · cases hstep
    · cases hstep
      exact storeWord_outside_of_not hx
  | setFlags flags =>
    simp only [Port.step] at hstep
    cases hstep
    exact storeWord_outside_of_not hx

/-- The step is the ring's, or none of it. -/
def Explains (size : Nat) (u v : Machine) : Option Label → Prop
  | some a => Rtt.Steps size u a v
  | none => v = u

theorem Keeps.write_lt (h : c.Keeps memory i p) : p.mWritePtr < 2 ^ 32 := by
  have hlt := h.mWritePtr_lt
  have hsize := (c.up i).size_lt
  omega

theorem Keeps.targetStep (h : c.Keeps memory i p) (hstep : p.targetStep b memory i = some (memory', p')) :
    Explains (c.up i).size (c.view memory i p) (c.view memory' i p') (p.pc.label .target) ∧
      p'.pc.Agrees (c.up i) p'.mWritePtr := by
  have hagrees := h.pc
  unfold Port.targetStep at hstep
  split at hstep
  · cases hstep
  · next value hpc =>
    cases hstep
    rw [hpc]
    refine ⟨?_, ?_⟩
    · show c.view _ _ _ = c.view _ _ _
      unfold view
      simp only [hpc, Pc.abs]
    · show getNextWritePtr _ p.mWritePtr = _
      rw [h.size]
  · next value next hpc =>
    rw [hpc] at hagrees ⊢
    split at hstep
    next hflags =>
      cases hstep
      refine ⟨?_, hagrees⟩
      simp only [Explains, Pc.label, Rtt.Steps, Rtt.step, Rtt.targetStep, view, hpc, Pc.abs, hflags, if_true]
    next hflags =>
      cases hstep
      refine ⟨?_, hagrees⟩
      simp only [Explains, Pc.label, Rtt.Steps, Rtt.step, Rtt.targetStep, view, hpc, Pc.abs, hflags, if_false]
      rfl
  · next value next hpc =>
    rw [hpc] at hagrees ⊢
    have hnext : next = getNextWritePtr (c.up i).size p.mWritePtr := hagrees
    split at hstep
    next hread =>
      cases hstep
      refine ⟨?_, hagrees⟩
      rw [hnext] at hread
      simp only [Explains, Pc.label, Rtt.Steps, Rtt.step, Rtt.targetStep, view, hpc, Pc.abs, hread, if_true]
    next hread =>
      cases hstep
      refine ⟨?_, hagrees⟩
      rw [hnext] at hread
      simp only [Explains, Pc.label, Rtt.Steps, Rtt.step, Rtt.targetStep, view, hpc, Pc.abs, hread, if_false]
  · next value next hpc =>
    cases hstep
    rw [hpc] at hagrees ⊢
    refine ⟨?_, hagrees⟩
    unfold Port.commit
    rw [view_storeWrite h.write_lt]
    simp only [Explains, Pc.label, Rtt.Steps, Rtt.step, Rtt.targetStep, view, hpc, Pc.abs]
  · next value next hpc =>
    cases hstep
    rw [hpc] at hagrees ⊢
    refine ⟨?_, hagrees, ?_⟩
    · show c.view _ _ _ = c.view _ _ _
      unfold view
      simp only [hpc, Pc.abs]
    · have hlt := h.mWritePtr_lt
      have hfits := (c.up i).fits
      rw [h.buffer, Nat.mod_eq_of_lt (by omega)]
  · next value next address hpc =>
    cases hstep
    rw [hpc] at hagrees ⊢
    obtain ⟨rfl, rfl⟩ := hagrees
    refine ⟨?_, trivial⟩
    rw [view_storeByte h.mWritePtr_lt]
    simp only [Explains, Pc.label, Rtt.Steps, Rtt.step, Rtt.targetStep, view, hpc, Pc.abs]
  · next hpc =>
    cases hstep
    rw [hpc]
    refine ⟨?_, trivial⟩
    unfold Port.commit
    rw [view_storeWrite h.write_lt]
    simp only [Explains, Pc.label, Rtt.Steps, Rtt.step, Rtt.targetStep, view, hpc, Pc.abs]

/-- **A step of a channel is a step of its ring.** -/
theorem Keeps.step (h : c.Keeps memory i p) (hstep : p.step b memory i a = some (memory', p')) :
    Explains (c.up i).size (c.view memory i p) (c.view memory' i p') (p.pc.label a) ∧
      p'.pc.Agrees (c.up i) p'.mWritePtr := by
  cases a with
  | callWrite value =>
    simp only [Port.step] at hstep
    split at hstep <;> cases hstep
    next hidle =>
      refine ⟨?_, trivial⟩
      simp only [Explains, Pc.label, Rtt.Steps, Rtt.step, view, hidle, Pc.abs, if_true]
  | callCommit =>
    simp only [Port.step] at hstep
    split at hstep <;> cases hstep
    next hidle =>
      refine ⟨?_, trivial⟩
      simp only [Explains, Pc.label, Rtt.Steps, Rtt.step, view, hidle, Pc.abs, if_true]
  | target => exact h.targetStep hstep
  | hostLoad =>
    simp only [Port.step] at hstep
    split at hstep <;> cases hstep
    next hidle =>
      refine ⟨?_, h.pc⟩
      simp only [Explains, Pc.label, Rtt.Steps, Rtt.step, view, hidle, if_true]
  | hostCopy =>
    simp only [Port.step] at hstep
    split at hstep
    · cases hstep
    · next seen pos hcopying =>
      split at hstep <;> cases hstep
      next hne =>
        obtain ⟨written, P, htrail⟩ := h.trail
        have hpos : pos < (c.up i).size := htrail.pos_lt hcopying
        refine ⟨?_, h.pc⟩
        simp only [Explains, Pc.label, Rtt.Steps, Rtt.step, view, hcopying, if_neg hne, h.size, h.buffer, if_pos hpos]
  | hostStore =>
    simp only [Port.step] at hstep
    split at hstep
    · cases hstep
    · next seen pos hcopying =>
      cases hstep
      obtain ⟨written, P, htrail⟩ := h.trail
      have hpos : pos < (c.up i).size := htrail.pos_lt hcopying
      have hsize := (c.up i).size_lt
      refine ⟨?_, h.pc⟩
      rw [view_storeRead (by omega)]
      simp only [Explains, Pc.label, Rtt.Steps, Rtt.step, view, hcopying]
  | setFlags flags =>
    simp only [Port.step] at hstep
    cases hstep
    refine ⟨?_, h.pc⟩
    rw [view_storeFlags]
    rfl

theorem Keeps.next (h : c.Keeps memory i p) (hstep : p.step b memory i a = some (memory', p')) :
    c.Keeps memory' i p' := by
  obtain ⟨hexplains, hagrees⟩ := h.step hstep
  have hconstant (f : ChannelField) (hf : ∀ x, c.Stores i a x → ¬InWord b i f x) :
      b.field memory' (.up i) f = b.field memory (.up i) f :=
    field_congr fun x hx => h.confined hstep fun hstores => hf x hstores hx
  have hstores (f : ChannelField) (hw : f ≠ .write) (hr : f ≠ .read) (hl : f ≠ .flags) (x : Nat)
      (hx : c.Stores i a x) : ¬InWord b i f x := by
    intro hword
    cases a with
    | target =>
      rcases hx with hx | hx
      · exact hw (inWord_unique hword hx).2
      · exact not_inBuffer_of_inWord hword hx
    | hostStore => exact hr (inWord_unique hword hx).2
    | setFlags flags => exact hl (inWord_unique hword hx).2
    | callWrite value => cases hx
    | callCommit => cases hx
    | hostLoad => cases hx
    | hostCopy => cases hx
  refine ⟨?_, ?_, hagrees, ?_⟩
  · rw [hconstant _ (hstores .size (by decide) (by decide) (by decide))]
    exact h.size
  · rw [hconstant _ (hstores .buffer (by decide) (by decide) (by decide))]
    exact h.buffer
  · obtain ⟨written, P, htrail⟩ := h.trail
    cases hlabel : p.pc.label a with
    | some a' =>
      rw [hlabel] at hexplains
      exact htrail.step hexplains
    | none =>
      rw [hlabel] at hexplains
      rw [show c.view memory' i p' = c.view memory i p from hexplains]
      exact ⟨written, P, htrail⟩

/-! The block. -/

section
variable {s t : System b} {x : BlockLabel b}

def Inv (c : Channels b) (s : System b) : Prop := ∀ i, c.Keeps s.memory i (s.port i)

theorem step_cases (hstep : c.Steps s x t) :
    (∃ i a memory p, x = .port i a ∧ (s.port i).step b s.memory i a = some (memory, p) ∧
      t = ⟨memory, update s.port i p⟩) ∨
    ∃ address bytes, x = .others address bytes ∧ c.Free address bytes.length ∧
      t = { s with memory := store s.memory address bytes } := by
  unfold Steps step at hstep
  cases x with
  | port i a =>
    obtain ⟨⟨memory, p⟩, hport, rfl⟩ := Option.map_eq_some_iff.mp hstep
    exact .inl ⟨i, a, memory, p, rfl, hport, rfl⟩
  | others address bytes =>
    simp only at hstep
    split at hstep
    next hfree =>
      cases hstep
      exact .inr ⟨address, bytes, rfl, hfree, rfl⟩
    · cases hstep

theorem Keeps.others (h : c.Keeps memory i p) (hstep : p.step b memory i a = some (memory', p')) (hne : j ≠ i)
    (x : Nat) (hx : c.Claims j x) : memory' x = memory x :=
  h.confined hstep fun hstores => hne (claims_apart hx hstores.claims)

theorem Free.others {address : Nat} {bytes : List UInt8} (h : c.Free address bytes.length) (x : Nat)
    (hx : c.Claims i x) : store memory address bytes x = memory x := store_outside (h.not_claims hx)

theorem Inv.step (h : c.Inv s) (hstep : c.Steps s x t) : c.Inv t := by
  intro j
  rcases step_cases hstep with ⟨i, a, memory, p, -, hport, rfl⟩ | ⟨address, bytes, -, hfree, rfl⟩
  · by_cases hj : j = i
    · subst hj
      show c.Keeps memory j (update s.port j p j)
      rw [update_self]
      exact (h j).next hport
    · show c.Keeps memory j (update s.port i p j)
      rw [update_of_ne hj]
      exact (h j).congr ((h i).others hport hj)
  · exact (h j).congr hfree.others

theorem Inv.machine (h : c.Inv s) (hstep : c.Steps s x t) (j : Fin b.upChannels) :
    Explains (c.up j).size (c.machine s j) (c.machine t j) (s.label j x) := by
  rcases step_cases hstep with ⟨i, a, memory, p, rfl, hport, rfl⟩ | ⟨address, bytes, rfl, hfree, rfl⟩
  · unfold Channels.machine System.label
    simp only
    by_cases hj : i = j
    · subst hj
      rw [if_pos rfl, update_self]
      exact ((h i).step hport).1
    · have hne : j ≠ i := fun heq => hj heq.symm
      rw [if_neg hj, update_of_ne hne]
      exact view_congr ((h i).others hport hne)
  · exact view_congr hfree.others

theorem refines (i : Fin b.upChannels) : Simulation.Refines (fun s a t => c.Inv s ∧ c.Steps s a t)
    (Rtt.Steps (c.up i).size) (fun s => c.machine s i) (System.label i) := by
  intro s x t hstep
  have hone := hstep.1.machine hstep.2 i
  cases hlabel : s.label i x with
  | some a =>
    rw [hlabel] at hone
    exact hone
  | none =>
    rw [hlabel] at hone
    exact hone

theorem Constructed.field (h : c.Constructed s) (i : Fin b.upChannels) (f : ChannelField) :
    b.field s.memory (.up i) f = ((c.up i).value f).getD f.initializer := by
  obtain ⟨memory, hconstruct, -⟩ := h
  have hi : i.val < (List.ofFn c.up).length := by
    rw [List.length_ofFn]
    exact i.isLt
  rw [ControlBlock.construct_up hconstruct hi, List.getElem_ofFn]

theorem Constructed.inv (h : c.Constructed s) : c.Inv s := by
  intro i
  have hfield := h.field i
  obtain ⟨-, -, hport⟩ := h
  have hpos : 0 < (c.up i).size := Nat.lt_of_lt_of_le Nat.zero_lt_two (c.two_le i)
  have hzero : 0 = Ring.slot 0 (c.up i).size 0 := (Ring.slot_zero hpos).symm
  have hwrite : b.field s.memory (.up i) .write = 0 := hfield .write
  rw [hport i]
  refine ⟨hfield .size, hfield .buffer, trivial, [], 0, rfl, ?_, ?_, Nat.le_refl _, fun k hk _ => ?_, ?_,
    fun _ _ heq => ?_⟩
  · exact hwrite.trans hzero
  · exact hwrite.trans hzero
  · cases hk
  · exact ⟨0, Nat.le_refl _, (hfield .read).trans hzero⟩
  · cases heq

theorem inv_always (h : c.Constructed s) {tr : Trace (BlockLabel b) (System b)} (hrun : IsRun c.Steps s tr) :
    Always c.Inv s tr := always_of_step (fun _ _ _ ht hstep => ht.step hstep) h.inv hrun

theorem Inv.confined (h : c.Inv s) (hstep : c.Steps s (.port i a) t) {x : Nat} (hx : ¬c.Stores i a x) :
    t.memory x = s.memory x := by
  rcases step_cases hstep with ⟨_, _, memory, p, heq, hport, rfl⟩ | ⟨_, _, heq, -⟩
  · cases heq
    exact (h i).confined hport hx
  · cases heq

/-- A byte of the block that is in no offset and no flags. -/
def Constant (b : ControlBlock) (x : Nat) : Prop :=
  b.address ≤ x ∧ x < b.address + (struct b.fields).size ∧
    ∀ i, ¬InWord b i .write x ∧ ¬InWord b i .read x ∧ ¬InWord b i .flags x

theorem Constant.not_stores {x : Nat} (h : Constant b x) : ¬c.Stores i a x := by
  obtain ⟨hfrom, hto, hwords⟩ := h
  intro hstores
  have hoff := c.offBlock i
  cases a with
  | target =>
    rcases hstores with hword | hbuffer
    · exact (hwords i).1 hword
    · unfold InBuffer at hbuffer
      omega
  | hostStore => exact (hwords i).2.1 hstores
  | setFlags flags => exact (hwords i).2.2 hstores
  | callWrite value => cases hstores
  | callCommit => cases hstores
  | hostLoad => cases hstores
  | hostCopy => cases hstores

theorem Inv.constant (h : c.Inv s) {y : BlockLabel b} (hstep : c.Steps s y t) {x : Nat} (hx : Constant b x) :
    t.memory x = s.memory x := by
  rcases step_cases hstep with ⟨i, a, memory, p, rfl, -⟩ | ⟨address, bytes, -, hfree, rfl⟩
  · exact h.confined hstep hx.not_stores
  · apply store_outside
    obtain ⟨hfrom, hto, -⟩ := hx
    obtain ⟨hblock, -⟩ := hfree
    omega

end

end Channels

/-- A block of two up channels. -/
def twoChannels : ControlBlock where
  upChannels := 2
  downChannels := 0
  empty := uint8
  address := 0x20000000
  aligned := by decide
  fits := by decide

def first : Fin twoChannels.upChannels := ⟨0, by decide⟩
def second : Fin twoChannels.upChannels := ⟨1, by decide⟩

/-- Their buffers, of two bytes each. -/
def twoBuffers : Channels twoChannels where
  up i :=
    have hi : i.val < 2 := i.isLt
    ⟨0x08000000, 0x20000100 + 2 * i, 2, by decide, by omega, by decide, by omega⟩
  down i := i.elim0
  two_le _ := Nat.le_refl 2
  offBlock := by decide
  apart := by decide

/-- The memory that the constructor leaves. -/
def twoMemory : Contents :=
  (twoChannels.construct (List.ofFn twoBuffers.up) (List.ofFn twoBuffers.down) fun _ => 0).getD fun _ => 0

def twoPorts : System twoChannels := ⟨twoMemory, Channels.transport twoMemory⟩

theorem twoPorts_constructed : twoBuffers.Constructed twoPorts := ⟨fun _ => 0, rfl, fun _ => rfl⟩

/-- A byte on each channel, of which one blocks. -/
def byteOnEach : List (BlockLabel twoChannels) :=
  [.port first (.setFlags .blockIfFull), .port second (.callWrite 7), .port first (.callWrite 1)] ++
    (List.replicate 5 [.port first .target, .port second .target]).flatten.take 9 ++
    [.port first .callCommit, .port first .target, .others 0x20001000 [1, 2, 3]]

/-- **Nobody stores elsewhere**: in every reached state a step of a channel stores to
that channel's offsets, flags and buffer only, each side to its own, and the rest
of the block is as it was constructed. -/
theorem stores_confined (c : Channels b) (s : System b) (h : c.Constructed s) (tr : Trace (BlockLabel b) (System b))
    (hrun : IsRun c.Steps s tr) :
    (∀ i a t, c.Steps (final s tr) (.port i a) t → ∀ x, ¬c.Stores i a x → t.memory x = (final s tr).memory x) ∧
      ∀ x, Channels.Constant b x → (final s tr).memory x = s.memory x := by
  refine ⟨fun i a t hstep x hx => ?_, fun x hx => ?_⟩
  · have hinv := always_final s tr (Channels.inv_always h hrun)
    exact hinv.confined hstep hx
  · have hkeep : Always (fun t => c.Inv t ∧ t.memory x = s.memory x) s tr :=
      always_of_step (fun _ _ _ ht hstep => ⟨ht.1.step hstep, (ht.1.constant hstep hx).trans ht.2⟩) ⟨h.inv, rfl⟩ hrun
    exact (always_final s tr hkeep).2

theorem stores_confined_two : ∃ s, byteOnEach.foldlM twoBuffers.step twoPorts = some s ∧
    (∀ i a t, twoBuffers.Steps s (.port i a) t → ∀ x, ¬twoBuffers.Stores i a x → t.memory x = s.memory x) ∧
      ∀ x, Channels.Constant twoChannels x → s.memory x = twoPorts.memory x := by
  obtain ⟨s, hs⟩ : ∃ s, byteOnEach.foldlM twoBuffers.step twoPorts = some s := ⟨_, rfl⟩
  obtain ⟨tr, hrun, hfinal⟩ := exists_isRun byteOnEach hs
  subst hfinal
  exact ⟨_, hs, stores_confined twoBuffers twoPorts twoPorts_constructed tr hrun⟩

/-- **The block in memory**: seen at a channel, every run of the transports, the host
and the rest of the program is a run of that channel's ring. -/
theorem block_refines (c : Channels b) (s : System b) (h : c.Constructed s) (tr : Trace (BlockLabel b) (System b))
    (hrun : IsRun c.Steps s tr) (i : Fin b.upChannels) :
    IsRun (Rtt.Steps (c.up i).size) (c.machine s i) (Simulation.image (fun s => c.machine s i) (System.label i) s tr) ∧
      final (c.machine s i) (Simulation.image (fun s => c.machine s i) (System.label i) s tr) =
        c.machine (final s tr) i :=
  (Channels.refines i).isRun (isRun_guarded (Channels.inv_always h hrun) hrun)

theorem block_refines_two : ∃ tr, follow twoBuffers.step twoPorts byteOnEach = some tr ∧
    IsRun (Rtt.Steps 2) (twoBuffers.machine twoPorts first)
      (Simulation.image (fun s => twoBuffers.machine s first) (System.label first) twoPorts tr) := by
  obtain ⟨tr, htr⟩ : ∃ tr, follow twoBuffers.step twoPorts byteOnEach = some tr := ⟨_, rfl⟩
  exact ⟨tr, htr, (block_refines twoBuffers twoPorts twoPorts_constructed tr (isRun_follow _ htr) first).1⟩

/-- **A channel is lossless whatever the others do.** However the block was used since
it was constructed: from any state in which a channel blocks and its write offset is
not behind the host's, the host copies in every further run exactly what was passed
to that channel's `write` from the host's offset on, in order and without a gap. -/
theorem block_lossless (c : Channels b) (s : System b) (h : c.Constructed s) (tr : Trace (BlockLabel b) (System b))
    (hrun : IsRun c.Steps s tr) (i : Fin b.upChannels) (hattach : Attachable (c.up i).size (c.machine (final s tr) i))
    (tr' : Trace (BlockLabel b) (System b)) (hrun' : IsRun c.Steps (final s tr) tr')
    (hmode' : Along (fun _ x => x ≠ .port i (.setFlags .noBlockTrim)) (final s tr) tr') :
    Always (fun t => ∃ copied, (t.port i).copied = ((final s tr).port i).copied ++ copied ∧
      copied <+: (t.port i).passed.drop (resumeFrom (c.up i).size (c.machine (final s tr) i))) (final s tr) tr' := by
  have hinv := always_final s tr (Channels.inv_always h hrun)
  obtain ⟨written, P, htrail⟩ := (hinv i).trail
  obtain ⟨before, hbefore, -, hbegin⟩ := htrail.queued hattach
  have hqueued : Always (fun t => c.Inv t ∧ Queued (c.ring i) (c.machine (final s tr) i) before (c.machine t i))
      (final s tr) tr' := by
    refine always_of_along (fun t x u ht hstep hx => ⟨ht.1.step hstep, ?_⟩) ⟨hinv, hbegin⟩ hrun' hmode'
    have hone := ht.1.machine hstep i
    cases hlabel : t.label i x with
    | some a =>
      rw [hlabel] at hone
      refine ht.2.step (fun ha => hx ?_) hone
      rw [ha] at hlabel
      exact System.label_setFlags hlabel
    | none =>
      rw [hlabel] at hone
      rw [show c.machine u i = c.machine t i from hone]
      exact ht.2
  apply hqueued.imp
  intro t ht
  have hcopied := ht.2.copied
  rw [hbefore] at hcopied
  exact hcopied

/-- The host reads it, and the next byte arrives while the other channel fills its
ring. -/
def nextOnFirst : List (BlockLabel twoChannels) :=
  [.port first .hostLoad, .port first .hostCopy, .port first .hostStore, .port first (.callWrite 2),
    .port second (.callWrite 8)] ++
    (List.replicate 5 [.port first .target, .port second .target]).flatten.take 9 ++
    [.port first .callCommit, .port first .target, .port first .hostLoad, .port first .hostCopy]

theorem byteOnEach_follows : ((byteOnEach.foldlM twoBuffers.step twoPorts).bind fun s =>
    (follow twoBuffers.step s nextOnFirst).map fun _ =>
      let u := twoBuffers.machine s first
      (u.flags, u.host, decide (Ring.ahead 2 u.read u.write ≤ Ring.ahead 2 u.read u.mWritePtr), u.target)) =
        some (.blockIfFull, .idle, true, .idle) := by
  decide +kernel

theorem block_lossless_two : ∃ s tr', byteOnEach.foldlM twoBuffers.step twoPorts = some s ∧
    follow twoBuffers.step s nextOnFirst = some tr' ∧
    Always (fun t => ∃ copied, (t.port first).copied = (s.port first).copied ++ copied ∧
      copied <+: (t.port first).passed.drop (resumeFrom 2 (twoBuffers.machine s first))) s tr' := by
  obtain ⟨s, hs, hfollow⟩ := Option.bind_eq_some_iff.mp byteOnEach_follows
  obtain ⟨tr', htr', heq⟩ := Option.map_eq_some_iff.mp hfollow
  simp only [Prod.mk.injEq, decide_eq_true_eq] at heq
  obtain ⟨hflags, hhost, hbetween, hidle⟩ := heq
  have hattach : Attachable 2 (twoBuffers.machine s first) :=
    ⟨hflags, hhost, hbetween, fun value hpc => by rw [hidle] at hpc; cases hpc⟩
  obtain ⟨tr, hrun, hfinal⟩ := exists_isRun byteOnEach hs
  subst hfinal
  exact ⟨_, tr', hs, htr', block_lossless twoBuffers twoPorts twoPorts_constructed tr hrun first hattach tr'
    (isRun_follow _ htr') (along_follow _ htr' (by decide))⟩

end Postform.Rtt
