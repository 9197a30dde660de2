import Postform.Programs

/- The serial transport of the app. `Uart::write` loads the status register until
   `tx_empty` is set and then stores the byte in the data register. The hardware
   behind the registers is not in the repository: it is a parameter, and what the code
   relies on is that a byte stored while `tx_empty` is set goes out on the line,
   behind those stored before (`UartRegisters.Documented`).

   With that the line has at any time a beginning of what the contexts of `Contexts`
   have logged, and `postform_serial` at its other end prints the first of the calls
   that won (`uart_program`). The wait loop ends: the context that has the writer, the
   transport and the transmitter alone bring the call in progress to its end, and all
   that was logged onto the line (`uart_never_stuck`). -/
namespace Postform

open Wire Host Runs

/-- The transmitter behind the registers: its state when `Init` has enabled it, the bit
`tx_empty`, a store to `data_reg`, what it does next on its own, and the bytes that
have gone out. -/
structure UartRegisters where
  State : Type
  ready : State
  txEmpty : State → Bool
  storeData : UInt8 → State → State
  shift : State → Option State
  line : State → Bytes

/-- What `write` relies on; `pending` are the bytes that were stored and have not
gone out yet. Only a store clears the bit, and the transmitter stops, but not before
all has gone out. -/
structure UartRegisters.Documented (regs : UartRegisters) (pending : regs.State → Bytes) : Prop where
  ready : regs.line regs.ready = [] ∧ pending regs.ready = []
  stored : ∀ s value, regs.txEmpty s = true → regs.line (regs.storeData value s) = regs.line s ∧
    pending (regs.storeData value s) = pending s ++ [value]
  shifted : ∀ s t, regs.shift s = some t → regs.line t ++ pending t = regs.line s ++ pending s
  staysEmpty : ∀ s t, regs.shift s = some t → regs.txEmpty s = true → regs.txEmpty t = true
  stops : WellFounded fun t s => regs.shift s = some t
  stopped : ∀ s, regs.shift s = none → regs.txEmpty s = true ∧ pending s = []

namespace Uart

/-- Where a call is: at the load of `status_reg` in the loop, or at the store. -/
inductive Pc where
  | idle
  | loadStatus (value : UInt8)
  | storeData (value : UInt8)
  deriving DecidableEq, Repr

/-- The byte of the call in progress. -/
def Pc.pending : Pc → Bytes
  | .idle => []
  | .loadStatus value | .storeData value => [value]

/-- The device and the call in progress. `passed` has the arguments of the calls. -/
structure Machine (regs : UartRegisters) where
  device : regs.State
  pc : Pc
  passed : Bytes

inductive Label where
  | callWrite (value : UInt8)
  | callCommit
  | target
  | shift
  deriving DecidableEq, Repr

variable {regs : UartRegisters}

def Machine.initial (regs : UartRegisters) : Machine regs := ⟨regs.ready, .idle, []⟩

/-- The next access to a register. -/
def targetStep (m : Machine regs) : Option (Machine regs) :=
  match m.pc with
  | .idle => none
  | .loadStatus value => some (if regs.txEmpty m.device then { m with pc := .storeData value } else m)
  | .storeData value => some { m with device := regs.storeData value m.device, pc := .idle }

/-- One step. `commit` has an empty body. -/
def step (m : Machine regs) : Label → Option (Machine regs)
  | .callWrite value =>
    if m.pc = .idle then some { m with pc := .loadStatus value, passed := m.passed ++ [value] } else none
  | .callCommit => if m.pc = .idle then some m else none
  | .target => targetStep m
  | .shift => (regs.shift m.device).map fun device => { m with device := device }

/-- The transport as a relation. -/
def Steps (m : Machine regs) (a : Label) (t : Machine regs) : Prop := step m a = some t

/-- What a call passes. -/
def Label.passes : Label → Bytes
  | .callWrite value => [value]
  | .callCommit | .target | .shift => []

/-- No byte is lost or overtaken, and none is about to be stored over another. -/
structure Inv (pending : regs.State → Bytes) (m : Machine regs) : Prop where
  order : regs.line m.device ++ pending m.device ++ m.pc.pending = m.passed
  empty : ∀ value, m.pc = .storeData value → regs.txEmpty m.device = true

section
variable {pending : regs.State → Bytes} {m t : Machine regs}

theorem passed_step {a : Label} (hstep : Steps m a t) : t.passed = m.passed ++ a.passes := by
  unfold Steps Uart.step at hstep
  cases a with
  | callWrite value =>
    simp only at hstep
    split at hstep <;> cases hstep
    rfl
  | callCommit =>
    simp only at hstep
    split at hstep <;> cases hstep
    exact (List.append_nil _).symm
  | target =>
    have hstep : targetStep m = some t := hstep
    rw [Label.passes, List.append_nil]
    unfold targetStep at hstep
    split at hstep
    · cases hstep
    · cases hstep
      split <;> rfl
    · cases hstep
      rfl
  | shift =>
    obtain ⟨device, -, rfl⟩ := Option.map_eq_some_iff.mp hstep
    exact (List.append_nil _).symm

variable (hregs : regs.Documented pending)
include hregs

theorem inv_initial : Inv pending (Machine.initial regs) where
  order := by
    show regs.line regs.ready ++ pending regs.ready ++ [] = []
    rw [hregs.ready.1, hregs.ready.2]
    rfl
  empty := fun _ h => by cases h

theorem Inv.targetStep (h : Inv pending m) (hstep : Uart.targetStep m = some t) : Inv pending t := by
  unfold Uart.targetStep at hstep
  split at hstep
  · cases hstep
  · next value hpc =>
    cases hstep
    split
    · next hempty =>
      refine ⟨?_, fun _ _ => hempty⟩
      rw [← h.order, hpc]
      rfl
    · exact h
  · next value hpc =>
    -- the store: the bit has stayed set since it was loaded
    cases hstep
    obtain ⟨hline, hpending⟩ := hregs.stored m.device value (h.empty value hpc)
    refine ⟨?_, fun _ hidle => by cases hidle⟩
    show regs.line (regs.storeData value m.device) ++ pending (regs.storeData value m.device) ++ [] = m.passed
    rw [hline, hpending, ← h.order, hpc, List.append_nil, List.append_assoc]
    rfl

theorem Inv.shift (h : Inv pending m) {device : regs.State} (hshift : regs.shift m.device = some device) :
    Inv pending { m with device := device } where
  order := by rw [hregs.shifted m.device device hshift, h.order]
  empty := fun value hpc => hregs.staysEmpty m.device device hshift (h.empty value hpc)

theorem Inv.step (h : Inv pending m) {a : Label} (hstep : Steps m a t) : Inv pending t := by
  unfold Steps Uart.step at hstep
  cases a with
  | callWrite value =>
    simp only at hstep
    split at hstep
    · next hidle =>
      cases hstep
      refine ⟨?_, fun _ hpc => by cases hpc⟩
      rw [← h.order, hidle]
      simp only [Pc.pending, List.append_nil]
    · cases hstep
  | callCommit =>
    simp only at hstep
    split at hstep <;> cases hstep
    exact h
  | target => exact h.targetStep hregs hstep
  | shift =>
    obtain ⟨device, hshift, rfl⟩ := Option.map_eq_some_iff.mp hstep
    exact h.shift hregs hshift

/-- **The line drains**: the transmitter alone sends all that was stored. -/
theorem Inv.drains (h : Inv pending m) : ∃ t, Leads Steps (· = .shift) m t ∧ Inv pending t ∧ t.pc = m.pc ∧
    t.passed = m.passed ∧ regs.txEmpty t.device = true ∧ pending t.device = [] := by
  induction hdevice : m.device using hregs.stops.induction generalizing m with
  | _ device ih =>
    subst hdevice
    cases hshift : regs.shift m.device with
    | none =>
      obtain ⟨hempty, hnone⟩ := hregs.stopped m.device hshift
      exact ⟨m, .refl m, h, rfl, rfl, hempty, hnone⟩
    | some device =>
      obtain ⟨t, hleads, ht⟩ := ih device hshift (h.shift hregs hshift) rfl
      have hstep : Steps m .shift { m with device := device } := by
        unfold Steps Uart.step
        simp only [hshift, Option.map_some]
      exact ⟨t, .cons hstep rfl hleads, ht⟩

/-- The call in progress and the transmitter. -/
def Moves (a : Label) : Prop := a = .target ∨ a = .shift

/-- **Every call returns**: the wait loop ends once the transmitter has sent what it
    has. -/
theorem Inv.returns (h : Inv pending m) : ∃ t, Leads Steps Moves m t ∧ Inv pending t ∧ t.pc = .idle ∧
    t.passed = m.passed := by
  have stores {u : Machine regs} {value : UInt8} (hu : Inv pending u) (hpc : u.pc = .storeData value) :
      ∃ t, Leads Steps Moves u t ∧ Inv pending t ∧ t.pc = .idle ∧ t.passed = u.passed := by
    have hstore : Uart.targetStep u = some { u with device := regs.storeData value u.device, pc := .idle } := by
      unfold Uart.targetStep
      rw [hpc]
    exact ⟨_, .cons (a := .target) hstore (.inl rfl) (.refl _), hu.targetStep hregs hstore, rfl, rfl⟩
  cases hpc : m.pc with
  | idle => exact ⟨m, .refl m, h, hpc, rfl⟩
  | storeData value => exact stores h hpc
  | loadStatus value =>
    obtain ⟨u, hdrains, hu, hsame, hpassed, hempty, -⟩ := h.drains hregs
    have hload : Uart.targetStep u = some { u with pc := .storeData value } := by
      unfold Uart.targetStep
      rw [hsame, hpc]
      simp only [hempty, if_true]
    obtain ⟨t, hleads, ht, hidle, hkept⟩ := stores (hu.targetStep hregs hload) rfl
    refine ⟨t, ?_, ht, hidle, hkept.trans hpassed⟩
    exact (hdrains.mono fun _ ha => .inr ha).trans (.cons (a := .target) hload (.inl rfl) hleads)

end

end Uart

/-- The call of the UART that an operation is. -/
def TransportOp.uartLabel : TransportOp → Uart.Label
  | .write value => .callWrite value
  | .commit => .callCommit

/-- The logger with its contexts, and the UART. -/
structure UartSystem (ι : Type) (p : Platform) (regs : UartRegisters) where
  logger : System ι p
  uart : Uart.Machine regs

/-- A step of a context outside of the transport, of the call of the transport in
progress, or of the transmitter. -/
inductive UartAction (ι : Type) where
  | context (i : ι) (action : Action)
  | transport
  | shift
  deriving DecidableEq, Repr

variable {ι : Type} [DecidableEq ι] {p : Platform} {regs : UartRegisters}

namespace UartSystem

def initial (regs : UartRegisters) (program : ι → List (List (Argument p))) : UartSystem ι p regs :=
  ⟨System.initial program, .initial regs⟩

/-- One step. A context that has the writer waits for its call of the transport to
return; what its step gives the transport is the next call. -/
def step (s : UartSystem ι p regs) : UartAction ι → Option (UartSystem ι p regs)
  | .context i action =>
    if (s.logger.contexts i).phase.holds ∧ s.uart.pc ≠ .idle then none
    else do
      let logger ← s.logger.step (i, action)
      let calls := (logger.received.drop s.logger.received.length).map TransportOp.uartLabel
      let uart ← calls.foldlM Uart.step s.uart
      pure ⟨logger, uart⟩
  | .transport => (Uart.step s.uart .target).map fun uart => { s with uart := uart }
  | .shift => (Uart.step s.uart .shift).map fun uart => { s with uart := uart }

/-- The system as a relation. -/
def Steps (s : UartSystem ι p regs) (a : UartAction ι) (t : UartSystem ι p regs) : Prop := s.step a = some t

variable {s t : UartSystem ι p regs}

theorem step_cases {a : UartAction ι} (hstep : s.step a = some t) :
    (∃ i b, a = .context i b ∧ s.logger.step (i, b) = some t.logger ∧
      ((s.logger.contexts i).phase.holds = true → s.uart.pc = .idle) ∧
      (t.uart = s.uart ∧ t.logger.received = s.logger.received ∨
        ∃ op, t.logger.received = s.logger.received ++ [op] ∧ Uart.Steps s.uart op.uartLabel t.uart)) ∨
    t.logger = s.logger ∧ ∃ label, Uart.Moves label ∧ Uart.Steps s.uart label t.uart := by
  unfold UartSystem.step at hstep
  cases a with
  | context i b =>
    left
    simp only at hstep
    split at hstep
    · cases hstep
    next hguard =>
    obtain ⟨logger, hlogger, hstep⟩ := Option.bind_eq_some_iff.mp hstep
    obtain ⟨uart, huart, hstep⟩ := Option.bind_eq_some_iff.mp hstep
    cases hstep
    refine ⟨i, b, rfl, hlogger, fun hholds => ?_, System.step_calls hlogger huart⟩
    by_contra hbusy
    exact hguard ⟨hholds, hbusy⟩
  | transport =>
    right
    obtain ⟨uart, huart, rfl⟩ := Option.map_eq_some_iff.mp hstep
    exact ⟨rfl, .target, .inl rfl, huart⟩
  | shift =>
    right
    obtain ⟨uart, huart, rfl⟩ := Option.map_eq_some_iff.mp hstep
    exact ⟨rfl, .shift, .inr rfl, huart⟩

/-- The logger's invariant and the UART's, with the bytes of the one passed to the
other; no call is in progress while the writer is free. -/
structure Inv (pending : regs.State → Bytes) (program : ι → List (List (Argument p))) (s : UartSystem ι p regs) :
    Prop where
  logger : System.Inv program s.logger
  uart : Uart.Inv pending s.uart
  passed : s.uart.passed = SerialWriter.opBytes s.logger.received
  free : s.logger.taken = false → s.uart.pc = .idle

variable {pending : regs.State → Bytes} {program : ι → List (List (Argument p))}

theorem Inv.line (h : Inv pending program s) :
    regs.line s.uart.device <+: SerialWriter.opBytes s.logger.received := by
  rw [← h.passed, ← h.uart.order, List.append_assoc]
  exact List.prefix_append _ _

section
variable (hregs : regs.Documented pending)
include hregs

theorem inv_initial : Inv pending program (initial regs program) where
  logger := System.inv_initial program
  uart := Uart.inv_initial hregs
  passed := rfl
  free := fun _ => rfl

theorem Inv.step (h : Inv pending program s) {a : UartAction ι} (hstep : s.step a = some t) : Inv pending program t := by
  rcases step_cases hstep with ⟨i, b, -, hlogger, hwaits, huart⟩ | ⟨hlogger, label, hmoves, huart⟩
  · have hinv := h.logger.step hlogger
    rcases huart with ⟨hquiet, hsame⟩ | ⟨op, hsent, hcall⟩
    · refine ⟨hinv, hquiet ▸ h.uart, by rw [hquiet, hsame, h.passed], fun hfree => ?_⟩
      rw [hquiet]
      rcases System.step_sends hlogger with ⟨-, hgiven, -⟩ | ⟨op, hsent, -⟩
      · rcases hgiven hfree with hfree | hphase
        · exact h.free hfree
        · exact hwaits (by rw [hphase]; rfl)
      · rw [hsame] at hsent
        exact absurd (congrArg List.length hsent) (by simp)
    · refine ⟨hinv, h.uart.step hregs hcall, ?_, fun hfree => ?_⟩
      · rw [Uart.passed_step hcall, h.passed, hsent, SerialWriter.opBytes_append]
        cases op <;> rfl
      · -- the context that calls has the writer
        rcases System.step_sends hlogger with ⟨hsame, -⟩ | ⟨op', -, hholds, -, htaken, -⟩
        · rw [hsame] at hsent
          exact absurd (congrArg List.length hsent) (by simp)
        · rw [htaken, (h.logger.lock.taken_iff ()).mpr ⟨i, System.owner_holds hholds⟩] at hfree
          cases hfree
  · refine ⟨hlogger ▸ h.logger, h.uart.step hregs huart, ?_, fun hfree => ?_⟩
    · rw [Uart.passed_step huart, hlogger, ← h.passed]
      rcases hmoves with rfl | rfl <;> exact List.append_nil _
    · rw [hlogger] at hfree
      have hidle := h.free hfree
      rcases hmoves with rfl | rfl
      · simp [Uart.Steps, Uart.step, Uart.targetStep, hidle] at huart
      · obtain ⟨device, -, heq⟩ := Option.map_eq_some_iff.mp huart
        rw [← heq]
        exact hidle

theorem inv_always {tr : Trace (UartAction ι) (UartSystem ι p regs)} (hrun : IsRun Steps (initial regs program) tr) :
    Always (Inv pending program) (initial regs program) tr :=
  always_of_step (fun _ _ _ h hstep => h.step hregs hstep) (inv_initial hregs) hrun

end

/-! Nothing is stuck. -/

/-- The steps of the transport, of the transmitter, and of a context that `holds` the
writer in its call. -/
def Serves (holds : ι → Prop) (a : UartAction ι) : Prop :=
  a = .transport ∨ a = .shift ∨ ∃ i, holds i ∧ a = .context i .proceed

variable {holds : ι → Prop}

theorem leads_uart (holds : ι → Prop) (logger : System ι p) {uart uart' : Uart.Machine regs}
    (h : Leads Uart.Steps Uart.Moves uart uart') : Leads Steps (Serves holds) ⟨logger, uart⟩ ⟨logger, uart'⟩ := by
  refine h.lift (f := fun uart => (⟨logger, uart⟩ : UartSystem ι p regs))
    (g := fun label => if label = .target then .transport else .shift) ?_ ?_
  · intro u label u' hstep hmoves
    unfold Steps UartSystem.step
    rcases hmoves with rfl | rfl
    · simp only [if_true, show Uart.step u .target = some u' from hstep, Option.map_some]
    · simp only [reduceCtorEq, if_false, show Uart.step u .shift = some u' from hstep, Option.map_some]
  · intro label hmoves
    rcases hmoves with rfl | rfl
    · exact .inl rfl
    · exact .inr (.inl rfl)

theorem proceeds {i : ι} (hholds : (s.logger.contexts i).phase.holds = true) (hidle : s.uart.pc = .idle) :
    ∃ t, Steps s (.context i .proceed) t ∧ s.logger.step (i, .proceed) = some t.logger := by
  obtain ⟨logger, hlogger⟩ := System.proceed_enabled (System.stepsLeft_of_holds hholds)
  unfold Steps UartSystem.step
  simp only [hidle, ne_eq, not_true_eq_false, and_false, if_false, hlogger, Option.bind_eq_bind, Option.bind_some]
  rcases System.step_sends hlogger with ⟨hsame, -, -⟩ | ⟨op, hsent, -⟩
  · rw [hsame, List.drop_length]
    exact ⟨⟨logger, s.uart⟩, rfl, rfl⟩
  · rw [hsent, List.drop_left]
    obtain ⟨uart, huart⟩ : ∃ uart, Uart.step s.uart op.uartLabel = some uart := by
      cases op <;> simp [Uart.step, TransportOp.uartLabel, hidle]
    exact ⟨⟨logger, uart⟩, by simp [huart], rfl⟩

section
variable (hregs : regs.Documented pending)
include hregs

theorem Inv.ends (holds : ι → Prop) (h : Inv pending program s) {i : ι} (hi : holds i)
    (hholds : (s.logger.contexts i).phase.holds = true) : ∃ t, Leads Steps (Serves holds) s t ∧ Inv pending program t ∧
      t.logger.taken = false ∧ t.logger.exchanges = s.logger.exchanges := by
  induction hleft : s.logger.stepsLeft i using Nat.strong_induction_on generalizing s with
  | _ left ih =>
    subst hleft
    -- the call of the transport that it is in returns
    obtain ⟨uart, hreturns, huart, hidle, hpassed⟩ := h.uart.returns hregs
    have hleads : Leads Steps (Serves holds) s ⟨s.logger, uart⟩ := leads_uart holds s.logger hreturns
    have hinv : Inv pending program ⟨s.logger, uart⟩ := ⟨h.logger, huart, hpassed.trans h.passed, fun _ => hidle⟩
    obtain ⟨t, hstep, hlogger⟩ := proceeds (s := ⟨s.logger, uart⟩) hholds hidle
    have hlogger : s.logger.step (i, .proceed) = some t.logger := hlogger
    have ht := hinv.step hregs hstep
    have hone : Leads Steps (Serves holds) s t := hleads.trans (.cons hstep (.inr (.inr ⟨i, hi, rfl⟩)) (.refl t))
    have hexchanges := System.proceed_exchanges hlogger
    rcases System.proceed_holds hlogger hholds with hmore | hfree
    · have hless := (System.stepsLeft_own hlogger (System.stepsLeft_of_holds hholds)).2
      obtain ⟨u, hends, hu, hfree, hsame⟩ := ih (t.logger.stepsLeft i) (by omega) ht hmore rfl
      exact ⟨u, hone.trans hends, hu, hfree, hsame.trans hexchanges⟩
    · exact ⟨t, hone, ht, hfree, hexchanges⟩

theorem Inv.drains (h : Inv pending program s) (hfree : s.logger.taken = false) :
    ∃ uart, Leads Steps (Serves holds) s ⟨s.logger, uart⟩ ∧ Inv pending program ⟨s.logger, uart⟩ ∧
      regs.line uart.device = SerialWriter.opBytes s.logger.received := by
  obtain ⟨uart, hdrains, huart, hsame, hpassed, -, hnone⟩ := h.uart.drains hregs
  have hpassed := hpassed.trans h.passed
  have hidle := hsame.trans (h.free hfree)
  have hleads : Leads Steps (Serves holds) s ⟨s.logger, uart⟩ :=
    leads_uart holds s.logger (hdrains.mono fun _ ha => .inr ha)
  refine ⟨uart, hleads, ⟨h.logger, huart, hpassed, fun _ => hidle⟩, ?_⟩
  have horder := huart.order
  rw [hnone, hidle, List.append_nil, hpassed] at horder
  exact (List.append_nil _).symm.trans horder

theorem Inv.serves (h : Inv pending program s) :
    ∃ t, Leads Steps (Serves fun i => (s.logger.contexts i).phase.holds = true) s t ∧ Inv pending program t ∧
      t.logger.taken = false ∧ t.logger.exchanges = s.logger.exchanges ∧
      regs.line t.uart.device = SerialWriter.opBytes t.logger.received := by
  cases htaken : s.logger.taken with
  | false =>
    obtain ⟨uart, hdrains, hinv, hline⟩ := h.drains hregs htaken
    exact ⟨_, hdrains, hinv, htaken, rfl, hline⟩
  | true =>
    obtain ⟨i, hi⟩ := (h.logger.lock.taken_iff ()).mp htaken
    have hholds : (s.logger.contexts i).phase.holds = true := by
      by_contra hn
      simp [System.owner, hn] at hi
    obtain ⟨t, hends, ht, hfree, hsame⟩ :=
      h.ends hregs (fun j => (s.logger.contexts j).phase.holds = true) hholds hholds
    obtain ⟨uart, hdrains, hinv, hline⟩ := ht.drains hregs hfree
    exact ⟨_, hends.trans hdrains, hinv, hfree, hsame, hline⟩

end

/-- The system whose contexts execute log macros. -/
abbrev running {image : Image} (regs : UartRegisters) (calls : ι → List (Call p image)) : UartSystem ι p regs :=
  initial regs fun i => (calls i).map Call.arguments

end UartSystem

/-- **The serial path with its UART.** Contexts execute log macros on one
    `SerialLogger` over the UART, whatever the order of the steps, and
    `postform_serial` has read a beginning of the line, in any reads and with any
    timeouts between. It has printed the logs of the first calls that won and goes
    on reading; where all that was sent has been read at most one call is missing,
    and none where no call is in progress. -/
theorem uart_program (crates : Crates) (hcrates : crates.Documented) (p : Platform) (image : Image) (version : Str)
    (labelled : Host.LogLevel → Bool) (file : ElfFile) (hlinked : Linked image version labelled file) (hostVersion : Str)
    (disableVersionCheck : Bool) (hagree : disableVersionCheck = true ∨ version = hostVersion) {ι : Type} [DecidableEq ι]
    (calls : ι → List (Call p image)) (regs : UartRegisters) (pending : regs.State → Bytes)
    (hregs : regs.Documented pending) (tr : Trace (UartAction ι) (UartSystem ι p regs))
    (hrun : IsRun UartSystem.Steps (UartSystem.running regs calls) tr) :
    Always (fun s => ∀ reads : List PortRead, .failed ∉ reads →
      reads.flatMap PortRead.data <+: regs.line s.uart.device → ∃ printed left, Delivered calls s.logger.won printed ∧
        serialMain crates hostVersion (.ok file) disableVersionCheck (some reads) =
          (events (Call.labelledLog labelled) printed, .reading left) ∧
        (reads.flatMap PortRead.data = SerialWriter.opBytes s.logger.received →
          s.logger.won.length ≤ printed.length + 1 ∧ (s.logger.taken = false → printed.map Prod.fst = s.logger.won)))
      (UartSystem.running regs calls) tr := by
  apply (UartSystem.inv_always hregs hrun).imp
  intro s h reads hworks hreads
  exact h.logger.serial hcrates hlinked hagree hworks (hreads.trans h.line)

/-- **The UART never blocks the logger for good.** However far a run has come, the
    context with the writer, the transport and the transmitter can go on, without the
    other contexts, to where the writer is free and all that was sent is on the line:
    `postform_serial`, when it has read it, has printed every call that had won, the
    one in progress included. -/
theorem uart_never_stuck (crates : Crates) (hcrates : crates.Documented) (p : Platform) (image : Image) (version : Str)
    (labelled : Host.LogLevel → Bool) (file : ElfFile) (hlinked : Linked image version labelled file) (hostVersion : Str)
    (disableVersionCheck : Bool) (hagree : disableVersionCheck = true ∨ version = hostVersion) {ι : Type} [DecidableEq ι]
    (calls : ι → List (Call p image)) (regs : UartRegisters) (pending : regs.State → Bytes)
    (hregs : regs.Documented pending) (tr : Trace (UartAction ι) (UartSystem ι p regs))
    (hrun : IsRun UartSystem.Steps (UartSystem.running regs calls) tr) :
    let s := final (UartSystem.running regs calls) tr
    ∃ t, Leads UartSystem.Steps (UartSystem.Serves fun i => (s.logger.contexts i).phase.holds = true) s t ∧
      t.logger.taken = false ∧ t.logger.won = s.logger.won ∧
      regs.line t.uart.device = SerialWriter.opBytes t.logger.received ∧ ∀ reads : List PortRead, .failed ∉ reads →
        reads.flatMap PortRead.data = regs.line t.uart.device → ∃ printed left, Delivered calls t.logger.won printed ∧
          printed.map Prod.fst = s.logger.won ∧
          serialMain crates hostVersion (.ok file) disableVersionCheck (some reads) =
            (events (Call.labelledLog labelled) printed, .reading left) := by
  intro s
  have h : UartSystem.Inv pending _ s := always_final _ _ (UartSystem.inv_always hregs hrun)
  obtain ⟨t, hleads, ht, hfree, hsame, hline⟩ := h.serves hregs
  have hwon : t.logger.won = s.logger.won := by rw [System.won, System.won, hsame]
  refine ⟨t, hleads, hfree, hwon, hline, fun reads hworks hreads => ?_⟩
  have hreads := hreads.trans hline
  obtain ⟨printed, left, hdelivered, hprints, hall⟩ :=
    ht.logger.serial hcrates hlinked hagree hworks (hreads ▸ List.prefix_refl _)
  refine ⟨printed, left, hdelivered, ?_, hprints⟩
  rw [← hwon]
  exact (hall hreads).2 hfree

namespace Sample

/-- A transmitter with a data register and a shift register. -/
def uartRegisters : UartRegisters where
  State := Option UInt8 × Option UInt8 × Bytes
  ready := (none, none, [])
  txEmpty s := s.1.isNone
  storeData value s := (some value, s.2)
  shift
    | (data, some value, line) => some (data, none, line ++ [value])
    | (some value, none, line) => some (none, some value, line)
    | (none, none, _) => none
  line s := s.2.2

theorem uartRegisters_documented : uartRegisters.Documented fun s => s.2.1.toList ++ s.1.toList where
  ready := ⟨rfl, rfl⟩
  stored := by
    rintro ⟨_ | data, shifting, line⟩ value hempty
    · exact ⟨rfl, by simp [uartRegisters]⟩
    · cases hempty
  shifted := by
    rintro ⟨_ | data, _ | shifting, line⟩ t hshift <;> cases hshift <;> simp [uartRegisters]
  staysEmpty := by
    rintro ⟨_ | data, _ | shifting, line⟩ t hshift hempty
    · cases hshift
    · cases hshift
      rfl
    · cases hempty
    · cases hempty
  stops := by
    -- a byte is two steps from the line in the data register, and one in the other
    refine Subrelation.wf ?_ (measure fun s : uartRegisters.State => 2 * s.1.toList.length + s.2.1.toList.length).wf
    rintro t ⟨_ | data, _ | shifting, line⟩ hshift <;> cases hshift <;> simp [InvImage, WellFoundedRelation.rel]
  stopped := by
    rintro ⟨_ | data, _ | shifting, line⟩ hshift
    · exact ⟨rfl, rfl⟩
    all_goals cases hshift

/-- The second byte waits for the first to leave the data register, while another
context is refused. -/
def uartRun : List (UartAction Bool) :=
  [.context true (.readTimestamp 5), .context true .exchange, .context true .proceed, .transport, .transport,
    .context false (.readTimestamp 6), .context true .proceed, .transport, .context false .exchange, .transport,
    .shift, .transport, .context false .proceed, .transport, .context true .proceed, .shift, .transport]

theorem uartRun_follows :
    (follow UartSystem.step (UartSystem.running (p := ⟨true, true, true⟩) uartRegisters fun _ : Bool => [Sample.call])
      uartRun).isSome = true := by
  decide +kernel

end Sample

theorem uart_program_sample : ∃ tr,
    follow UartSystem.step (UartSystem.running Sample.uartRegisters fun _ : Bool => [Sample.call]) Sample.uartRun =
      some tr ∧
    Always (fun s => ∀ reads : List PortRead, .failed ∉ reads →
      reads.flatMap PortRead.data <+: Sample.uartRegisters.line s.uart.device →
        ∃ printed left, Delivered (fun _ => [Sample.call]) s.logger.won printed ∧
          serialMain Crates.reference "1".toList (.ok Sample.file) false (some reads) =
            (events (Call.labelledLog Sample.labelled) printed, .reading left) ∧
          (reads.flatMap PortRead.data = SerialWriter.opBytes s.logger.received →
            s.logger.won.length ≤ printed.length + 1 ∧ (s.logger.taken = false → printed.map Prod.fst = s.logger.won)))
      (UartSystem.running Sample.uartRegisters fun _ => [Sample.call]) tr := by
  obtain ⟨tr, htr⟩ := Option.isSome_iff_exists.mp Sample.uartRun_follows
  exact ⟨tr, htr, uart_program Crates.reference Crates.reference_documented _ _ _ _ _ Sample.linked "1".toList false
    (.inr rfl) _ _ _ Sample.uartRegisters_documented tr (isRun_follow _ htr)⟩

theorem uart_never_stuck_sample : ∃ s : UartSystem Bool ⟨true, true, true⟩ Sample.uartRegisters,
    Sample.uartRun.foldlM UartSystem.step (UartSystem.running Sample.uartRegisters fun _ : Bool => [Sample.call]) =
      some s ∧
    ∃ t, Leads UartSystem.Steps (UartSystem.Serves fun i => (s.logger.contexts i).phase.holds = true) s t ∧
      t.logger.taken = false ∧ t.logger.won = s.logger.won ∧
      Sample.uartRegisters.line t.uart.device = SerialWriter.opBytes t.logger.received ∧
      ∀ reads : List PortRead, .failed ∉ reads → reads.flatMap PortRead.data = Sample.uartRegisters.line t.uart.device →
          ∃ printed left, Delivered (fun _ => [Sample.call]) t.logger.won printed ∧
            printed.map Prod.fst = s.logger.won ∧
            serialMain Crates.reference "1".toList (.ok Sample.file) false (some reads) =
              (events (Call.labelledLog Sample.labelled) printed, .reading left) := by
  obtain ⟨tr, htr⟩ := Option.isSome_iff_exists.mp Sample.uartRun_follows
  exact ⟨_, foldlM_of_follow _ htr, uart_never_stuck Crates.reference Crates.reference_documented _ _ _ _ _
    Sample.linked "1".toList false (.inr rfl) _ _ _ Sample.uartRegisters_documented tr (isRun_follow _ htr)⟩

end Postform
