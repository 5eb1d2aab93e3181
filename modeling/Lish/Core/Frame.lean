import Lish.Core.Exec
import Lish.Core.RamWord
/-!
# Frame — what the hart leaves alone

What every access leaves alone on the bus, every computation does.  Of the hart's registers a translation changes the TLB
rows only, and no operation moves the clocks of the privileged state; the instruction count moves by one or not at all.
-/
namespace Lish

/-! ## The bus -/

/-- A relation that every access of a bus respects. -/
structure BusRel {β : Type} [Bus β] (R : β → β → Prop) : Prop where
  refl : ∀ b, R b b
  trans : ∀ b b' b'', R b b' → R b' b'' → R b b''
  read : ∀ w b addr, R b (Bus.read w b addr).2
  write : ∀ w b addr val, R b (Bus.write w b addr val).2
  fetch16 : ∀ (b : β) addr, R b (Bus.fetch16 b addr).2
  fetch32IfSafe : ∀ (b : β) addr, R b (Bus.fetch32IfSafe b addr).2
  irqLines : ∀ b : β, R b (Bus.irqLines b).2

/-- The bytes of an access lie on one page. -/
def InPage (addr : U64) (n : ℕ) : Prop := (addr &&& 0xfff).toNat + n ≤ 0x1000

theorem offset_toNat (a : U64) : (a &&& 0xfff).toNat = a.toNat % 0x1000 := by
  rw [BitVec.toNat_and, show (0xfff : U64).toNat = 2 ^ 12 - 1 from rfl, Nat.and_two_pow_sub_one_eq_mod]

theorem inPage_of_aligned {a : U64} (h : Aligned a) : InPage a 8 := by
  unfold Aligned at h
  unfold InPage
  rw [offset_toNat]
  omega

/-- A relation that every access of a bus respects, where no write crosses a page. -/
structure PagedRel {β : Type} [Bus β] (R : β → β → Prop) : Prop where
  refl : ∀ b, R b b
  trans : ∀ b b' b'', R b b' → R b' b'' → R b b''
  read : ∀ w b addr, R b (Bus.read w b addr).2
  write : ∀ w b addr val, InPage addr w.bytes → R b (Bus.write w b addr val).2
  fetch16 : ∀ (b : β) addr, R b (Bus.fetch16 b addr).2
  fetch32IfSafe : ∀ (b : β) addr, R b (Bus.fetch32IfSafe b addr).2
  irqLines : ∀ b : β, R b (Bus.irqLines b).2

theorem BusRel.paged {β : Type} [Bus β] {R : β → β → Prop} (h : BusRel R) : PagedRel R :=
  ⟨h.refl, h.trans, h.read, fun w b addr val _ => h.write w b addr val, h.fetch16, h.fetch32IfSafe, h.irqLines⟩

namespace Machine

variable {β : Type} [Bus β] {R : β → β → Prop} {m : Machine β}

theorem busRel_true : BusRel fun _ _ : β => True :=
  ⟨fun _ => trivial, fun _ _ _ _ _ => trivial, fun _ _ _ => trivial, fun _ _ _ _ => trivial, fun _ _ => trivial,
    fun _ _ => trivial, fun _ => trivial⟩

theorem findLeaf_bus (h : PagedRel R) (access : Access) (va : U64) (level : ℕ) (table : U64) (b : β) :
    R b (findLeaf access va level table b).2 := by
  induction level generalizing table b with
  | zero =>
    have hr := h.read .w8 b (pteAddrAt table va 0)
    unfold findLeaf
    rcases hb : Bus.read .w8 b (pteAddrAt table va 0) with ⟨e | pte, b'⟩
    · rw [hb] at hr; exact hr
    · rw [hb] at hr
      dsimp only
      cases entryOf pte <;> exact hr
  | succ level ih =>
    have hr := h.read .w8 b (pteAddrAt table va (level + 1))
    unfold findLeaf
    rcases hb : Bus.read .w8 b (pteAddrAt table va (level + 1)) with ⟨e | pte, b'⟩
    · rw [hb] at hr; exact hr
    · rw [hb] at hr
      dsimp only
      cases entryOf pte with
      | bad => exact hr
      | table next => exact h.trans _ _ _ hr (ih next b')
      | leaf => exact hr

/-- The entry a walk ends in is aligned, as every table is. -/
theorem findLeaf_aligned {access : Access} {va : U64} {level : ℕ} {table : U64} {b b' : β} {leaf : Leaf}
    (ht : table.toNat % 4096 = 0) (h : findLeaf access va level table b = (.ok leaf, b')) : Aligned leaf.pteAddr := by
  induction level generalizing table b with
  | zero =>
    unfold findLeaf at h
    rcases hb : Bus.read .w8 b (pteAddrAt table va 0) with ⟨e | pte, b₁⟩
    · rw [hb] at h; cases h
    · rw [hb] at h
      dsimp only at h
      cases he : entryOf pte <;> rw [he] at h <;> cases h
      exact aligned_pteAddrAt ht va 0
  | succ level ih =>
    unfold findLeaf at h
    rcases hb : Bus.read .w8 b (pteAddrAt table va (level + 1)) with ⟨e | pte, b₁⟩
    · rw [hb] at h; cases h
    · rw [hb] at h
      dsimp only at h
      cases he : entryOf pte with
      | bad => rw [he] at h; cases h
      | table next =>
        rw [he] at h
        obtain rfl : next = nextTable pte := by
          unfold entryOf at he
          split_ifs at he
          exact (Entry.table.inj he).symm
        exact ih (table_aligned _) h
      | leaf =>
        rw [he] at h
        cases h
        exact aligned_pteAddrAt ht va _

/-- Only the TLB rows differ. -/
def TlbOnly (c c' : Cpu) : Prop :=
  c' = { c with tlbTag := c'.tlbTag, tlbDiff := c'.tlbDiff, jtlbTag := c'.jtlbTag, jtlbOff := c'.jtlbOff }

theorem TlbOnly.refl (c : Cpu) : TlbOnly c c := rfl

theorem TlbOnly.trans {c c' c'' : Cpu} (h : TlbOnly c c') (h' : TlbOnly c' c'') : TlbOnly c c'' := by
  unfold TlbOnly at h h' ⊢
  rw [h] at h'
  exact h'

theorem tlbOnly_fillTlb (c : Cpu) (access : Access) (va pa : U64) : TlbOnly c (fillTlb c access va pa) := by
  unfold fillTlb
  dsimp only
  split_ifs <;> rfl

theorem takeLeaf_frame (h : PagedRel R) (s : SysCsrs) (va : U64) (access : Access) {leaf : Leaf} (ha : Aligned leaf.pteAddr)
    {b : β} (hb : R m.bus b) :
    R m.bus (m.takeLeaf s va access leaf b).2.bus ∧ TlbOnly m.cpu (m.takeLeaf s va access leaf b).2.cpu := by
  unfold takeLeaf
  dsimp only
  split_ifs with h1 h2
  · exact ⟨hb, .refl _⟩
  · have hw := h.write .w8 b leaf.pteAddr (updatePte access leaf.pte) (inPage_of_aligned ha)
    rcases hr : Bus.write .w8 b leaf.pteAddr (updatePte access leaf.pte) with ⟨e | u, b'⟩
    · rw [hr] at hw
      exact ⟨h.trans _ _ _ hb hw, .refl _⟩
    · rw [hr] at hw
      exact ⟨h.trans _ _ _ hb hw, tlbOnly_fillTlb _ _ _ _⟩
  · exact ⟨hb, tlbOnly_fillTlb _ _ _ _⟩

theorem walkTables_frame (h : PagedRel R) (m : Machine β) (s : SysCsrs) (levels : ℕ) (va : U64) (access : Access) :
    R m.bus (m.walkTables s levels va access).2.bus ∧ TlbOnly m.cpu (m.walkTables s levels va access).2.cpu := by
  unfold walkTables
  dsimp only
  split_ifs
  · exact ⟨h.refl _, .refl _⟩
  · have hf := findLeaf_bus h access va (levels - 1) ((s.satp &&& 0xfffffffffff) <<< 12) m.bus
    rcases hr : findLeaf access va (levels - 1) ((s.satp &&& 0xfffffffffff) <<< 12) m.bus with ⟨e | leaf, b⟩
    · rw [hr] at hf
      exact ⟨hf, .refl _⟩
    · rw [hr] at hf
      exact takeLeaf_frame h s va access (findLeaf_aligned (table_aligned _) hr) hf

/-- **A translation** changes the TLB rows only, and on the bus what its accesses change. -/
theorem translate_frame (h : PagedRel R) (m : Machine β) (va : U64) (access : Access) :
    R m.bus (m.translate va access).2.bus ∧ TlbOnly m.cpu (m.translate va access).2.cpu := by
  have hstay : R m.bus m.bus ∧ TlbOnly m.cpu m.cpu := ⟨h.refl _, .refl _⟩
  unfold translate
  cases m.cpu.sys with
  | none => exact hstay
  | some s =>
    dsimp only
    split_ifs
    · exact hstay
    · unfold translateSlow
      cases m.cpu.sys with
      | none => exact hstay
      | some s =>
        dsimp only
        split_ifs
        · exact hstay
        · exact walkTables_frame h _ _ _ _ _
        · exact walkTables_frame h _ _ _ _ _
        · exact hstay

theorem fillJtlb_frame (m : Machine β) (va pa : U64) (store : Bool) :
    (m.fillJtlb va pa store).bus = m.bus ∧ TlbOnly m.cpu (m.fillJtlb va pa store).cpu := by
  unfold fillJtlb
  cases Bus.jitFastOff m.bus va pa store <;> exact ⟨rfl, rfl⟩

theorem translateFill_frame (h : PagedRel R) (m : Machine β) (va : U64) (store : Bool) :
    R m.bus (m.translateFill va store).2.bus ∧ TlbOnly m.cpu (m.translateFill va store).2.cpu := by
  have ht := translate_frame h m va (if store then .store else .load)
  unfold translateFill
  rcases hr : m.translate va (if store then .store else .load) with ⟨e | pa, m'⟩
  · rw [hr] at ht
    exact ht
  · rw [hr] at ht
    obtain ⟨hb, hc⟩ := fillJtlb_frame m' va pa store
    exact ⟨by dsimp only; rw [hb]; exact ht.1, ht.2.trans hc⟩

/-- What an operation does to the registers. -/
def cpuAfter (c : Cpu) : HartOp → Option Cpu
  | .cpu u => some (u.apply c)
  | .csrWrite _ csr v => some (c.csrWrite csr v).1
  | _ => none

/-- **An operation** changes the registers as it says, or the TLB rows only; the bus as its accesses do. -/
theorem exec_frame (h : BusRel R) (o : HartOp) (m : Machine β) :
    R m.bus (exec o m).2.bus ∧
      match cpuAfter m.cpu o with
      | some c => (exec o m).2.cpu = c
      | none => TlbOnly m.cpu (exec o m).2.cpu := by
  cases o with
  | get => exact ⟨h.refl _, .refl _⟩
  | cpu u => exact ⟨h.refl _, rfl⟩
  | csrWrite insn csr v => exact ⟨h.refl _, rfl⟩
  | translate va access => exact translate_frame h.paged m va access
  | translateFill va store => exact translateFill_frame h.paged m va store
  | read w pa => exact ⟨h.read w m.bus pa, .refl _⟩
  | write w pa v => exact ⟨h.write w m.bus pa v, .refl _⟩
  | fetch16 pa => exact ⟨h.fetch16 m.bus pa, .refl _⟩
  | fetch32IfSafe pa => exact ⟨h.fetch32IfSafe m.bus pa, .refl _⟩
  | irqLines => exact ⟨h.irqLines m.bus, .refl _⟩

theorem run_bus {α : Type} (h : BusRel R) (p : Hart α) (m : Machine β) : R m.bus (p.run exec m).2.bus := by
  refine Program.run_invariant (P := fun _ _ => True) (J := fun s : Machine β => R m.bus s.bus) (fun s o hs _ => ?_) p (h.refl _) ?_
  · exact h.trans _ _ _ hs (exec_frame h o s).1
  · exact Program.guarded_true _ _ _

end Machine

/-! ## The clocks of the privileged state -/

namespace Cpu

/-- The clocks of the privileged state: the mirrored time, and scale and offset of the interpolation. -/
def clocks (c : Cpu) : Option (U64 × U64 × U64) := c.sys.map fun s => (s.mtime, s.timeScale, s.timeOffset)

theorem clocks_modifySys (c : Cpu) {g : SysCsrs → SysCsrs}
    (hg : ∀ s, ((g s).mtime, (g s).timeScale, (g s).timeOffset) = (s.mtime, s.timeScale, s.timeOffset)) :
    (c.modifySys g).clocks = c.clocks := by
  unfold clocks modifySys
  cases c.sys with
  | none => rfl
  | some s => exact congrArg some (hg s)

theorem sys_countTrap (c : Cpu) (cause : U64) (isInterrupt : Bool) :
    (c.countTrap cause isInterrupt).sys = c.sys ∧ (c.countTrap cause isInterrupt).insnCount = c.insnCount := by
  unfold countTrap
  cases isInterrupt <;> cases cause == 8 <;> exact ⟨rfl, rfl⟩

theorem clocks_takeTrap (c : Cpu) (cause tval : U64) (isInterrupt : Bool) :
    (c.takeTrap cause tval isInterrupt).clocks = c.clocks ∧ (c.takeTrap cause tval isInterrupt).insnCount = c.insnCount := by
  obtain ⟨hs, hi⟩ := sys_countTrap { c with irqPollCd := 0, reservation := none } cause isInterrupt
  unfold takeTrap
  dsimp only
  generalize countTrap _ cause isInterrupt = c' at hs hi ⊢
  dsimp only at hs hi
  unfold clocks
  cases hc : c'.sys with
  | none => exact ⟨by dsimp only; rw [← hs, hc], hi⟩
  | some s =>
    rw [hc] at hs
    rw [← hs]
    dsimp only
    cases delegated s cause isInterrupt <;> exact ⟨rfl, hi⟩

/-- **No register operation** moves the clocks; the instruction count moves by one or not at all. -/
theorem clocks_apply (c : Cpu) (u : CpuOp) :
    (u.apply c).clocks = c.clocks ∧ ((u.apply c).insnCount = c.insnCount ∨ (u.apply c).insnCount = c.insnCount + 1) := by
  cases u with
  | wr rd v =>
    change (c.wr rd v).clocks = _ ∧ ((c.wr rd v).insnCount = _ ∨ _)
    unfold wr
    split_ifs <;> exact ⟨rfl, Or.inl rfl⟩
  | fpDirty => exact ⟨clocks_modifySys c fun _ => rfl, Or.inl rfl⟩
  | latch lines => exact ⟨clocks_modifySys c fun _ => rfl, Or.inl rfl⟩
  | retire next => exact ⟨rfl, Or.inr rfl⟩
  | countInsn => exact ⟨rfl, Or.inr rfl⟩
  | trap cause tval isInterrupt =>
    obtain ⟨h1, h2⟩ := clocks_takeTrap c cause tval isInterrupt
    exact ⟨h1, Or.inl h2⟩
  | mret => exact ⟨clocks_modifySys c fun _ => rfl, Or.inl rfl⟩
  | sret => exact ⟨clocks_modifySys c fun _ => rfl, Or.inl rfl⟩
  | _ => exact ⟨rfl, Or.inl rfl⟩

theorem clocks_putSys (c : Cpu) {g : SysCsrs → SysCsrs}
    (hg : ∀ s, ((g s).mtime, (g s).timeScale, (g s).timeOffset) = (s.mtime, s.timeScale, s.timeOffset)) :
    (c.putSys g).1.clocks = c.clocks ∧ (c.putSys g).1.insnCount = c.insnCount := by
  unfold putSys clocks
  cases hs : c.sys with
  | none => exact ⟨by dsimp only; rw [hs], rfl⟩
  | some s => exact ⟨congrArg some (hg s), rfl⟩

theorem clocks_putStatus (c : Cpu) (writable v : U64) :
    (c.putStatus writable v).1.clocks = c.clocks ∧ (c.putStatus writable v).1.insnCount = c.insnCount := by
  have h := clocks_putSys c (g := fun s => { s with mstatus := (s.mstatus &&& ~~~writable) ||| (v &&& writable) }) fun _ => rfl
  unfold putStatus
  dsimp only
  split_ifs <;> exact h

theorem clocks_putSatp (c : Cpu) (v : U64) :
    (c.putSatp v).1.clocks = c.clocks ∧ (c.putSatp v).1.insnCount = c.insnCount := by
  unfold putSatp clocks
  cases hs : c.sys with
  | none => exact ⟨by dsimp only; rw [hs], rfl⟩
  | some s =>
    dsimp only
    split_ifs
    · exact ⟨by rw [hs], rfl⟩
    · unfold writeSatp
      dsimp only
      split_ifs <;> exact ⟨by first | rfl | rw [hs], rfl⟩

theorem clocks_csrPut (c : Cpu) (csr : ℕ) (v : U64) :
    (c.csrPut csr v).1.clocks = c.clocks ∧ (c.csrPut csr v).1.insnCount = c.insnCount := by
  unfold csrPut
  split
  all_goals first
    | exact ⟨rfl, rfl⟩
    | exact ⟨clocks_modifySys c fun _ => rfl, rfl⟩
    | exact clocks_putStatus c _ v
    | exact clocks_putSatp c v
    | exact clocks_putSys c fun _ => rfl
    | skip
  split_ifs
  · exact clocks_putSys c fun _ => rfl
  · exact clocks_putSys c fun _ => rfl
  · exact ⟨rfl, rfl⟩

theorem clocks_csrWrite (c : Cpu) (csr : ℕ) (v : U64) :
    (c.csrWrite csr v).1.clocks = c.clocks ∧ (c.csrWrite csr v).1.insnCount = c.insnCount := by
  unfold csrWrite
  dsimp only
  split_ifs
  · exact ⟨rfl, rfl⟩
  · exact ⟨rfl, rfl⟩
  · exact clocks_csrPut _ csr v

end Cpu

namespace Machine

variable {β : Type} [Bus β] {R : β → β → Prop}

theorem TlbOnly.sys {c c' : Cpu} (h : TlbOnly c c') : c'.sys = c.sys := by
  unfold TlbOnly at h
  have hs := congrArg Cpu.sys h
  exact hs

theorem TlbOnly.insnCount {c c' : Cpu} (h : TlbOnly c c') : c'.insnCount = c.insnCount := by
  unfold TlbOnly at h
  have hi := congrArg Cpu.insnCount h
  exact hi

/-- **No operation** moves the clocks; the instruction count moves by one or not at all. -/
theorem exec_clocks (h : BusRel R) (o : HartOp) (m : Machine β) :
    (exec o m).2.cpu.clocks = m.cpu.clocks ∧
      ((exec o m).2.cpu.insnCount = m.cpu.insnCount ∨ (exec o m).2.cpu.insnCount = m.cpu.insnCount + 1) := by
  have hf := (exec_frame h o m).2
  unfold cpuAfter at hf
  split at hf
  · next c hc =>
    split at hc
    · obtain rfl := Option.some.inj hc
      rw [hf]
      exact Cpu.clocks_apply _ _
    · obtain rfl := Option.some.inj hc
      rw [hf]
      exact ⟨(Cpu.clocks_csrWrite _ _ _).1, Or.inl (Cpu.clocks_csrWrite _ _ _).2⟩
    · cases hc
  · exact ⟨by unfold Cpu.clocks; rw [hf.sys], Or.inl hf.insnCount⟩

end Machine
end Lish
