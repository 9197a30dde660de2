import Postform.Lib.Runs
import Postform.RttHost

/- What the two calls of `configureRttMode` change. The address they store the
   mode at is `rttAddr + 24 + 24 * channelIdx + 20` as the host computes it
   (`modeFlagsAddr_eq`), and nothing has looked at the index by then. For an up
   channel of the block it is the flags of that channel (`modeFlagsAddr_up`), for
   another index a word of something else.

   So the calls keep to the flags of the selected channel exactly when there is
   such a channel or the store does not get through (`configure_confined_iff`). -/
namespace Postform.RttHost

open Layout Memory Rtt Runs

/-- `x` is a byte of the flags of up channel `i`, if there is one. -/
def InFlags (block : ControlBlock) (i x : Nat) : Prop :=
  i < block.upChannels ∧ block.wordAt (.up i) .flags ≤ x ∧ x < block.wordAt (.up i) .flags + 4

/-- Nothing changes but the flags of up channel `i`. -/
def OnlyFlags (block : ControlBlock) (i : Nat) (before after : Contents) : Prop :=
  ∀ x, ¬InFlags block i x → after x = before x

/-- The store for channel `i` gets through: its address does not overflow where
the build checks it, and is that of a writable word. -/
def Reaches (host : Host) (block : ControlBlock) (writable : Nat → Prop) (i : Nat) : Prop :=
  ¬(host.overflowChecks ∧ 2 ^ host.usizeBits ≤ block.address + 24 + 24 * i + 20) ∧
    writable ((block.address + 24 + 24 * i + 20) % 2 ^ host.usizeBits)

section
variable {Link : Type} (writeWord32 : WriteWord32 Link) {host : Host} (opts : Opts host) (block : ControlBlock)

/-- A call of `configureRttMode` changes nothing but the selected flags. -/
def Confined (s : State) : Label Link → Prop
  | .configure link =>
    ∀ t, Steps writeWord32 opts block s (.configure link) t → OnlyFlags block opts.rttChannel s.memory t.memory
  | _ => True

/-- The calls of `configureRttMode` in every run of `main` are so. -/
def KeepsToFlags (memory : Contents) : Prop := ∀ tr, IsRun (Steps writeWord32 opts block) (.initial opts memory) tr →
  Along (Confined writeWord32 opts block) (.initial opts memory) tr

end

/-! The address. -/

variable {host : Host} {block : ControlBlock} {i : Nat}

theorem two_pow_le (host : Host) : 2 ^ 32 ≤ 2 ^ host.usizeBits := by
  apply Nat.pow_le_pow_right (by decide)
  have h := host.bits
  omega

/-- Once a sum is out of range it stays so, and wrapping twice is wrapping
once. -/
theorem usize_add (host : Host) (m n : Nat) :
    ((host.usize m).bind fun x => host.usize (x + n)) = host.usize (m + n) := by
  unfold Host.usize
  by_cases hchecks : host.overflowChecks
  · by_cases hm : 2 ^ host.usizeBits ≤ m
    · have hsum : 2 ^ host.usizeBits ≤ m + n := by omega
      simp [hchecks, hm, hsum]
    · simp [hchecks, hm, Nat.mod_eq_of_lt (Nat.lt_of_not_le hm)]
  · simp [hchecks, Nat.mod_add_mod]

theorem usize_add_usize (host : Host) (m n : Nat) :
    ((host.usize m).bind fun x => (host.usize n).bind fun y => host.usize (x + y)) = host.usize (m + n) := by
  have hswap : ∀ x, ((host.usize n).bind fun y => host.usize (x + y)) = host.usize (x + n) := by
    intro x
    have h := usize_add host n x
    rw [Nat.add_comm n x] at h
    rw [← h]
    congr 1
    funext y
    rw [Nat.add_comm]
  simp only [hswap]
  exact usize_add host m n

theorem modeFlagsAddr_eq {rttAddr channelIdx : Nat} (h : rttAddr < 2 ^ 32) :
    modeFlagsAddr host rttAddr channelIdx = host.usize (rttAddr + 24 + 24 * channelIdx + 20) := by
  have haddr : rttAddr % 2 ^ host.usizeBits = rttAddr := Nat.mod_eq_of_lt (Nat.lt_of_lt_of_le h (two_pow_le host))
  unfold modeFlagsAddr
  rw [haddr]
  calc ((host.usize (rttAddr + 24)).bind fun header => (host.usize (24 * channelIdx)).bind fun channels =>
          (host.usize (header + channels)).bind fun channel => host.usize (channel + 20))
      = ((host.usize (rttAddr + 24)).bind fun header => (host.usize (24 * channelIdx)).bind fun channels =>
          host.usize (header + channels)).bind fun channel => host.usize (channel + 20) := by
        simp only [Option.bind_assoc]
    _ = (host.usize (rttAddr + 24 + 24 * channelIdx)).bind fun channel => host.usize (channel + 20) := by
        rw [usize_add_usize]
    _ = host.usize (rttAddr + 24 + 24 * channelIdx + 20) := usize_add ..

theorem address_lt (block : ControlBlock) : block.address < 2 ^ 32 := by
  have hheader : offsetOf block.fields .header + 24 ≤ (struct block.fields).size :=
    offsetOf_add_le block.fields_nodup (e := struct headerFields) List.mem_cons_self
  have hfits : block.address + (struct block.fields).size ≤ 2 ^ 32 := block.fits
  omega

theorem usize_of_lt {n : Nat} (h : n < 2 ^ 32) : host.usize n = some n := by
  have hlt := Nat.lt_of_lt_of_le h (two_pow_le host)
  unfold Host.usize
  rw [if_neg (fun hover => Nat.not_le_of_lt hlt hover.2), Nat.mod_eq_of_lt hlt]

theorem wordAt_lt {p : Place} (h : block.Has p) : block.wordAt p .flags < 2 ^ 32 := by
  have hword := ControlBlock.wordAt_add_le h .flags
  have hfits : block.address + (struct block.fields).size ≤ 2 ^ 32 := block.fits
  omega

theorem modeFlagsAddr_up (h : i < block.upChannels) :
    modeFlagsAddr host block.address i = some (block.wordAt (.up i) .flags) := by
  rw [modeFlagsAddr_eq (address_lt block), ← ControlBlock.wordAt_up h]
  exact usize_of_lt (wordAt_lt (p := .up i) h)

theorem reaches_iff {writable : Nat → Prop} : Reaches host block writable i ↔
    ∃ address, modeFlagsAddr host block.address i = some address ∧ writable address := by
  rw [modeFlagsAddr_eq (address_lt block)]
  unfold Reaches Host.usize
  by_cases hover : host.overflowChecks ∧ 2 ^ host.usizeBits ≤ block.address + 24 + 24 * i + 20
  · rw [if_pos hover]
    simp [hover]
  · rw [if_neg hover]
    simp [hover]

/-! A call. -/

section
variable {Link : Type} {writeWord32 : WriteWord32 Link} {writable : Nat → Prop}
variable {link : Link} {memory : Contents} {mode : RttMode}

theorem configure_outside (hprobe : Documented writeWord32 writable) {address : Nat}
    (haddr : modeFlagsAddr host block.address i = some address) {x : Nat} (hx : x < address ∨ address + 4 ≤ x) :
    (configureRttMode writeWord32 host link memory block.address i mode).2 x = memory x := by
  unfold configureRttMode
  rw [haddr]
  exact hprobe.outside hx

theorem configure_stored (hprobe : Documented writeWord32 writable) {address : Nat}
    (haddr : modeFlagsAddr host block.address i = some address)
    (hok : (configureRttMode writeWord32 host link memory block.address i mode).1 = .ok) :
    (configureRttMode writeWord32 host link memory block.address i mode).2 =
      storeWord 4 memory address mode.value := by
  unfold configureRttMode at hok ⊢
  rw [haddr] at hok ⊢
  apply hprobe.stored
  by_contra hfailed
  simp [hfailed] at hok

theorem configure_up (hprobe : Documented writeWord32 writable) (h : i < block.upChannels) :
    OnlyFlags block i memory (configureRttMode writeWord32 host link memory block.address i mode).2 := by
  intro x hx
  apply configure_outside hprobe (modeFlagsAddr_up h)
  by_contra hin
  exact hx ⟨h, by omega⟩

theorem configure_refused (hprobe : Documented writeWord32 writable) (h : ¬Reaches host block writable i) :
    (configureRttMode writeWord32 host link memory block.address i mode).2 = memory := by
  unfold configureRttMode
  cases haddr : modeFlagsAddr host block.address i with
  | none => rfl
  | some address =>
    have hnot : ¬writable address := fun hw => h (reaches_iff.mpr ⟨address, haddr, hw⟩)
    show (writeWord32 link memory address mode.value).memory = memory
    rw [hprobe.refused hnot]

theorem configure_reaches (hprobe : Documented writeWord32 writable) (h : Reaches host block writable i) :
    ∃ address link, ∀ memory mode, configureRttMode writeWord32 host link memory block.address i mode =
      (.ok, storeWord 4 memory address mode.value) := by
  obtain ⟨address, haddr, hwritable⟩ := reaches_iff.mp h
  obtain ⟨link, hlink⟩ := hprobe.works hwritable
  refine ⟨address, link, fun memory mode => ?_⟩
  have hok : (configureRttMode writeWord32 host link memory block.address i mode).1 = .ok := by
    unfold configureRttMode
    rw [haddr]
    exact if_pos (hlink memory mode.value)
  exact Prod.ext hok (configure_stored hprobe haddr hok)

theorem value_lt (mode : RttMode) : mode.value < 256 ^ 4 := by
  cases mode <;> decide

/-! A run. -/

variable {opts : Opts host}

theorem configure_step {s t : State} (h : Steps writeWord32 opts block s (.configure link) t) :
    ∃ mode, t.memory = (configureRttMode writeWord32 host link s.memory block.address opts.rttChannel mode).2 := by
  simp only [Steps, step] at h
  split at h
  next mode rest _ =>
    cases h
    exact ⟨mode, rfl⟩
  · cases h

theorem confined_of_configure (hcall : ∀ link memory mode, OnlyFlags block opts.rttChannel memory
      (configureRttMode writeWord32 host link memory block.address opts.rttChannel mode).2)
    (s : State) (a : Label Link) : Confined writeWord32 opts block s a := by
  cases a with
  | configure link =>
    intro t ht
    obtain ⟨mode, hmemory⟩ := configure_step ht
    rw [hmemory]
    exact hcall link s.memory mode
  | returns | read | fails | others => trivial

theorem returns_calls : ∀ (calls rest : List Call) (memory : Contents), (∀ mode, .configureRttMode mode ∉ calls) →
    (List.replicate calls.length (.returns [])).foldlM (step writeWord32 opts block) ⟨memory, calls ++ rest, []⟩ =
      some ⟨memory, rest, []⟩
  | [], _, _, _ => rfl
  | call :: calls, rest, memory, h => by
    have hstep : step writeWord32 opts block ⟨memory, call :: calls ++ rest, []⟩ (.returns []) =
        some ⟨memory, calls ++ rest, []⟩ := by
      cases call with
      | configureRttMode mode => exact absurd List.mem_cons_self (h mode)
      | downloadFirmware | attachRtt | runCore | disableCdebugen | spawnGdb | readChannel => rfl
    rw [List.length_cons, List.replicate_succ, List.foldlM_cons, hstep]
    exact returns_calls calls rest memory fun mode hmem => h mode (List.mem_cons_of_mem _ hmem)

theorem beforeConfigure_others (opts : Opts host) (mode : RttMode) : .configureRttMode mode ∉ opts.beforeConfigure := by
  unfold Opts.beforeConfigure
  split <;> simp

theorem afterConfigure_others (opts : Opts host) (mode : RttMode) : .configureRttMode mode ∉ opts.afterConfigure := by
  unfold Opts.afterConfigure
  split <;> split <;> simp

theorem step_configure {address : Nat} (hcall : ∀ memory mode,
      configureRttMode writeWord32 host link memory block.address opts.rttChannel mode =
        (.ok, storeWord 4 memory address mode.value)) (rest : List Call) :
    step writeWord32 opts block ⟨memory, .configureRttMode mode :: rest, []⟩ (.configure link) =
      some ⟨storeWord 4 memory address mode.value, rest, []⟩ := by
  unfold step
  simp only [hcall, if_pos]

theorem exists_run_configure {address : Nat} (hcall : ∀ memory mode,
      configureRttMode writeWord32 host link memory block.address opts.rttChannel mode =
        (.ok, storeWord 4 memory address mode.value)) (memory : Contents) :
    ∃ tr, IsRun (Steps writeWord32 opts block) (.initial opts memory) tr ∧
      final (.initial opts memory) tr =
        ⟨storeWord 4 memory address RttMode.blocking.value, [.configureRttMode .nonBlocking], []⟩ := by
  apply exists_isRun (List.replicate opts.beforeConfigure.length (.returns []) ++
    .configure link :: List.replicate opts.afterConfigure.length (.returns []))
  unfold State.initial main
  rw [List.append_assoc, foldlM_append (returns_calls _ _ memory (beforeConfigure_others opts)), List.foldlM_cons,
    List.cons_append, step_configure hcall]
  exact returns_calls _ _ _ (afterConfigure_others opts)

theorem onlyFlags_behind {before after : Contents} (hi : block.upChannels ≤ i) (h : OnlyFlags block i before after) :
    after = before := by
  funext x
  apply h
  intro hin
  exact absurd hin.1 (Nat.not_lt_of_le hi)

/-- **A run that does not keep to the flags.** Where there is no such up channel
and the store gets through, the second call changes the mode that the first has
stored. -/
theorem not_keepsToFlags (hprobe : Documented writeWord32 writable) (hbehind : block.upChannels ≤ opts.rttChannel)
    (hreaches : Reaches host block writable opts.rttChannel) (memory : Contents) :
    ¬KeepsToFlags writeWord32 opts block memory := by
  obtain ⟨address, link, hcall⟩ := configure_reaches hprobe hreaches
  obtain ⟨tr, hrun, hfinal⟩ := exists_run_configure hcall memory
  have hstep : Steps writeWord32 opts block (final (.initial opts memory) tr) (.configure link)
      ⟨storeWord 4 (storeWord 4 memory address RttMode.blocking.value) address RttMode.nonBlocking.value, [], []⟩ := by
    rw [hfinal]
    exact step_configure hcall []
  intro hkeeps
  have hconfined := along_concat (hkeeps _ (isRun_concat hrun hstep)) _ hstep
  rw [hfinal] at hconfined
  have hload := congrArg (loadWord 4 · address) (onlyFlags_behind hbehind hconfined)
  simp only at hload
  rw [loadWord_storeWord (value_lt _), loadWord_storeWord (value_lt _)] at hload
  cases hload

/-- **When the calls keep to the flags.** In every run of `main` the calls of
`configureRttMode` change nothing but the flags of the selected up channel,
exactly when the block has that channel or the store does not get through. -/
theorem configure_confined_iff (hprobe : Documented writeWord32 writable) (opts : Opts host) (block : ControlBlock)
    (memory : Contents) : KeepsToFlags writeWord32 opts block memory ↔
      opts.rttChannel < block.upChannels ∨ ¬Reaches host block writable opts.rttChannel := by
  constructor
  · intro hkeeps
    by_contra hnot
    obtain ⟨hbehind, hreaches⟩ := not_or.mp hnot
    exact not_keepsToFlags hprobe (Nat.le_of_not_lt hbehind) (Classical.not_not.mp hreaches) memory hkeeps
  · intro hcond
    apply along_iff_reached.mpr
    intro tr _ a t _
    apply confined_of_configure
    intro link memory mode
    rcases hcond with hup | hrefused
    · exact configure_up hprobe hup
    · intro x _
      rw [configure_refused hprobe hrefused]

end

theorem configure_confined_app :
    KeepsToFlags (steadyProbe AppRam) (⟨false, false, none⟩ : Opts release64) seggerRtt fun _ => 0 :=
  (configure_confined_iff (steadyProbe_documented AppRam) _ _ _).mpr (.inl (by decide))

/-- Channel 1 of the app's block, which has channel 0 only: the mode goes to the
word 16 bytes behind the block. -/
theorem missing_channel_overwrites :
    ¬KeepsToFlags (steadyProbe AppRam) (⟨false, false, some 1⟩ : Opts release64) seggerRtt fun _ => 0 := by
  have hreaches : Reaches release64 seggerRtt AppRam 1 := ⟨by decide, by decide⟩
  exact not_keepsToFlags (steadyProbe_documented AppRam) (by decide) hreaches _

end Postform.RttHost
