import Lish.Core.Arms
import Lish.System.StoreRows
/-!
# CodeWatch — every way to write RAM is watched

Interpreted stores and device writes tell the page tracker; compiled stores do not, and reach unmarked pages only.  Marking a
page takes it away from the rows of compiled stores.
-/
namespace Lish

open Machine Tables JitPageState Dma

/-! ## Compiled code and its marks -/

/-- Mark the page of compiled code, and take it away from compiled stores. -/
def codeMarkPage (m : Machine VirtBus) (pa : U64) : Machine VirtBus :=
  let (newly, jit) := m.bus.jit.markAddress pa
  ⟨if newly then (m.cpu.invalidateStoreJtlbPage pa).2 else m.cpu, { m.bus with jit := jit }⟩

/-- The linear address compiled code finds for an access: the fused row must hold the page under the live context. -/
def fusedIndex (c : Cpu) (va : U64) (store : Bool) : Option U64 :=
  let page := ((va >>> 12) &&& TLB_VPN_MASK) ||| c.jitTlbContextTag
  if c.jtlbTag (jitRow store) (Cpu.tlbIndex va) = page then some (va + c.jtlbOff (jitRow store) (Cpu.tlbIndex va)) else none

/-- The offset in RAM of linear memory, where so many bytes from it are RAM. -/
def GuestRam.linear (r : GuestRam) (addr : U64) (n : ℕ) : Option ℕ :=
  if r.ptr ≤ addr ∧ (addr - r.ptr).toNat + n ≤ r.len then some (addr - r.ptr).toNat else none

/-- A compiled store; one that crosses a page, or has no row, bails out and stores nothing. -/
def compiledStore (w : Width) (va val : U64) (m : Machine VirtBus) : Machine VirtBus :=
  if (va &&& 0xfff).toNat + w.bytes > 0x1000 then m
  else match (fusedIndex m.cpu va true).bind fun addr => m.bus.ram.linear addr w.bytes with
    | some off => { m with bus := m.bus.storeRam off w.bytes val }
    | none => m

/-! ## One step -/

/-- The rows stay sound, and what happened to RAM is observed. -/
def Watched (m m' : Machine VirtBus) : Prop :=
  Sound m → Sound m' ∧ VirtBus.Steady m.bus m'.bus ∧ Observed m.bus.dma m'.bus.dma

namespace Watched

variable {m m' m'' : Machine VirtBus}

theorem refl (m : Machine VirtBus) : Watched m m := fun h => ⟨h, .refl _, .refl h.sized⟩

theorem trans (h : Watched m m') (h' : Watched m' m'') : Watched m m'' := fun hs =>
  ⟨(h' (h hs).1).1, (h hs).2.1.trans (h' (h hs).1).2.1, (h hs).2.2.trans (h' (h hs).1).2.2⟩

/-- Registers only. -/
theorem of_cpu {c : Cpu} (h : Sound m → Sound ⟨c, m.bus⟩) : Watched m ⟨c, m.bus⟩ := fun hs => ⟨h hs, .refl _, .refl hs.sized⟩

/-- An access within a page. -/
theorem of_bus {b : VirtBus} (h : VirtBus.Steady m.bus b ∧ VirtBus.Tracked m.bus b) : Watched m { m with bus := b } := fun hs =>
  ⟨hs.tracked h.1 h.2, h.1, h.2 hs.sized⟩

/-- **An operation** of the hart is watched, if it does not write across a page. -/
theorem exec (m : Machine VirtBus) {o : HartOp} (ho : ∀ w pa v, o = .write w pa v → InPage pa w.bytes) :
    Watched m (Machine.exec o m).2 := by
  have hp := Sound.pagedRel
  cases o with
  | get => exact refl m
  | cpu u =>
    refine of_cpu fun hs => ?_
    rcases Cpu.apply_rows m.cpu u with hr | rfl | ⟨va, rfl⟩
    · exact hs.rows hr (Cpu.synced_apply hs.synced u)
    · exact hs.emptied ⟨fun _ _ => rfl, fun _ _ => rfl, rfl, rfl⟩ (Cpu.synced_apply hs.synced .flushTlb)
    · exact hs.flushTlbPage va
  | csrWrite insn csr v =>
    refine of_cpu fun hs => ?_
    have hc := Cpu.synced_csrWrite hs.synced csr v
    rcases Cpu.csrWrite_rows m.cpu csr v with hr | he
    · exact hs.rows hr hc
    · exact hs.emptied he hc
  | translate va access =>
    obtain ⟨h1, h2⟩ := (translate_frame hp m va access).1
    exact fun hs => ⟨(hs.translate va access).1, h1, h2 hs.sized⟩
  | translateFill va store =>
    obtain ⟨h1, h2⟩ := (translateFill_frame hp m va store).1
    exact fun hs => ⟨(hs.translateFill va store).1, h1, h2 hs.sized⟩
  | read w pa => exact of_bus (hp.read w m.bus pa)
  | write w pa v => exact of_bus (hp.write w m.bus pa v (ho w pa v rfl))
  | fetch16 pa => exact of_bus (hp.fetch16 m.bus pa)
  | fetch32IfSafe pa => exact of_bus (hp.fetch32IfSafe m.bus pa)
  | irqLines => exact of_bus (hp.irqLines m.bus)

/-- An operation, and what follows when it is answered. -/
theorem op {α : Type} {o : HartOp} {k : o.Ans → Hart α} (ho : ∀ w pa v, o = .write w pa v → InPage pa w.bytes)
    (hk : ∀ r m', Machine.exec o m = (.ok r, m') → Watched m' ((k r).run Machine.exec m').2) :
    Watched m ((Program.op o k : Hart α).run Machine.exec m).2 := by
  have h := exec m ho
  rw [Program.run_op]
  rcases hr : Machine.exec o m with ⟨e | r, m'⟩ <;> rw [hr] at h
  · exact h
  · exact h.trans (hk r m' hr)

theorem bind {α γ : Type} {p : Hart α} {f : α → Hart γ} (hp : Watched m (p.run Machine.exec m).2)
    (hf : ∀ a m', Watched m' ((f a).run Machine.exec m').2) : Watched m ((p.bind f).run Machine.exec m).2 := by
  rw [Program.run_bind]
  rcases hr : p.run Machine.exec m with ⟨e | a, m'⟩ <;> rw [hr] at hp
  · exact hp
  · exact hp.trans (hf a m')

theorem inPage_one (pa : U64) : InPage pa 1 := by
  unfold InPage
  rw [offset_toNat]
  have := Nat.mod_lt pa.toNat (show 0 < 0x1000 by decide)
  omega

theorem ldBytes (va : U64) (n : ℕ) (m : Machine VirtBus) : Watched m ((Hart.ldBytes va n).run Machine.exec m).2 := by
  induction n generalizing m with
  | zero => exact refl m
  | succ n ih =>
    refine bind (ih m) fun v m' => ?_
    exact op (fun _ _ _ he => nomatch he) fun pa m'' _ => op (fun _ _ _ he => nomatch he) fun b m₃ _ => refl m₃

theorem stBytes (va val : U64) (n : ℕ) (m : Machine VirtBus) : Watched m ((Hart.stBytes va val n).run Machine.exec m).2 := by
  induction n generalizing m with
  | zero => exact refl m
  | succ n ih =>
    refine bind (ih m) fun _ m' => ?_
    refine op (fun _ _ _ he => nomatch he) fun pa m'' _ => op (fun w pa' v he => ?_) fun _ m₃ _ => refl m₃
    cases he
    exact inPage_one pa

/-- **A load** is watched. -/
theorem ld (w : Width) (va : U64) (m : Machine VirtBus) : Watched m ((Hart.ld w va).run Machine.exec m).2 := by
  refine op (fun _ _ _ he => nomatch he) fun c m' _ => ?_
  rw [Program.pure_bind]
  split_ifs
  · exact ldBytes va w.bytes m'
  · exact op (fun _ _ _ he => nomatch he) fun pa m'' _ => op (fun _ _ _ he => nomatch he) fun v m₃ _ => refl m₃

/-- **A store** is watched: it writes bytes one by one, or all of them within a page. -/
theorem st (w : Width) (va val : U64) (m : Machine VirtBus) : Watched m ((Hart.st w va val).run Machine.exec m).2 := by
  refine fun hs => op (fun _ _ _ he => nomatch he) (fun c m' hget => ?_) hs
  cases hget
  rw [Program.pure_bind]
  split_ifs with hsplit
  · exact stBytes va val w.bytes m
  · refine op (fun _ _ _ he => nomatch he) fun pa m' ht => op (fun w' pa' v he => ?_) fun _ m₃ _ => refl m₃
    cases he
    have hoff := (hs.translateFill va true).2 pa (by rw [show m.translateFill va true = (.ok pa, m') from ht])
    unfold Hart.splits at hsplit
    rw [hs.system, Bool.true_and, decide_eq_true_eq, not_lt] at hsplit
    unfold InPage
    rw [offset_toNat, hoff, ← offset_toNat]
    exact hsplit

/-- **Computations made of loads and stores** are watched. -/
theorem made {α : Type} {p : Hart α} {Q : α → Prop} (hp : Hart.Made Hart.Apart Q p) (m : Machine VirtBus) :
    Watched m (p.run Machine.exec m).2 := by
  refine hp.keeps (J := Watched m) (fun o t ho ht => ?_) (fun w va t ht => ht.trans (ld w va t))
    (fun w va val t ht => ht.trans (st w va val t)) (refl m)
  refine ht.trans (exec t fun w pa v he => ?_)
  rw [he] at ho
  exact ho.elim

end Watched

/-! ## Marking -/

theorem pageBase_eq (x : U64) : x &&& ~~~(0xfff : U64) = (x >>> 12) <<< 12 := by
  apply BitVec.eq_of_getLsbD_eq
  intro i hi
  rw [BitVec.getLsbD_and, BitVec.getLsbD_not, BitVec.getLsbD_shiftLeft, BitVec.getLsbD_ushiftRight,
    show (0xfff : U64) = 1#64 <<< 12 - 1 from rfl]
  by_cases h : i < 12
  · rw [lowMask_bit (by omega) h]
    simp [h]
  · have hm : (1#64 <<< 12 - 1 : U64).getLsbD i = false := by
      apply Nat.testBit_lt_two_pow
      calc (1#64 <<< 12 - 1 : U64).toNat < 2 ^ 12 := by decide
        _ ≤ 2 ^ i := Nat.pow_le_pow_right (by decide) (by omega)
    rw [hm, show 12 + (i - 12) = i by omega]
    simp [h, hi]

/-- The page a tag stands for, moved as its row says. -/
theorem mappedPage_tagOf {c : Cpu} {i : Fin tlbSize} {ctx va : U64} (hd : (c.tlbDiff 2 i).toNat % 4096 = 0) :
    c.mappedPage i (tagOf ctx va) = (va + c.tlbDiff 2 i) &&& ~~~(0xfff : U64) := by
  unfold Cpu.mappedPage
  rw [Cpu.tagOf_vpn, pageBase_eq, pageBase_eq, show Access.store.row = 2 from rfl]
  congr 1
  change SamePage ((va >>> 12) <<< 12 + c.tlbDiff 2 i) (va + c.tlbDiff 2 i)
  have hbase : ((va >>> 12) <<< 12).toNat = va.toNat - va.toNat % 4096 := by
    rw [BitVec.toNat_shiftLeft, BitVec.toNat_ushiftRight, Nat.shiftRight_eq_div_pow, Nat.shiftLeft_eq]
    have := va.isLt
    omega
  rw [samePage_iff, BitVec.toNat_add, BitVec.toNat_add, hbase]
  have := va.isLt
  omega

theorem markAddress_fst {s : JitPageState} {pa : U64} (h : (s.markAddress pa).1 = false) (pa' : U64) :
    (s.markAddress pa).2.addressMarked pa' = s.addressMarked pa' := by
  unfold markAddress at h ⊢
  cases hp : s.pageForAddress pa with
  | none => rfl
  | some page =>
    rw [hp] at h
    have hm : s.marked page = true := by simpa using h
    change (match s.pageForAddress pa' with
      | some p => if p = page then true else s.marked p
      | none => false) = _
    unfold addressMarked
    cases s.pageForAddress pa' with
    | none => rfl
    | some p =>
      dsimp only
      split_ifs with hpage
      · rw [hpage, hm]
      · rfl

theorem pageForAddress_inj {s : JitPageState} {pa pa' : U64} {page : ℕ} (h : s.pageForAddress pa = some page)
    (h' : s.pageForAddress pa' = some page) : SamePage pa pa' := by
  have hpage : ∀ x : U64, s.pageForAddress x = some page → RAM_BASE.toNat ≤ x.toNat ∧ page = (x.toNat - RAM_BASE.toNat) / 4096 :=
    fun x hx => by
      unfold pageForAddress at hx
      dsimp only at hx
      split_ifs at hx with hlt _
      have hle : RAM_BASE ≤ x := BitVec.not_lt.1 hlt
      refine ⟨BitVec.le_def.1 hle, ?_⟩
      rw [← Option.some.inj hx, BitVec.toNat_ushiftRight, Nat.shiftRight_eq_div_pow, BitVec.toNat_sub_of_le hle]
      rfl
  obtain ⟨h1, h2⟩ := hpage pa h
  obtain ⟨h1', h2'⟩ := hpage pa' h'
  have hbase : RAM_BASE.toNat = 2147483648 := rfl
  rw [samePage_iff]
  omega

theorem markAddress_other {s : JitPageState} {pa pa' : U64} (h : ¬ SamePage pa' pa) :
    (s.markAddress pa).2.addressMarked pa' = s.addressMarked pa' := by
  unfold markAddress
  cases hp : s.pageForAddress pa with
  | none => rfl
  | some page =>
    change (match s.pageForAddress pa' with
      | some p => if p = page then true else s.marked p
      | none => false) = _
    unfold addressMarked
    cases hp' : s.pageForAddress pa' with
    | none => rfl
    | some p =>
      refine if_neg fun hpage => h ?_
      subst hpage
      exact pageForAddress_inj hp' hp

/-- What marking changes in the tracker. -/
structure Marking (s s' : JitPageState) : Prop where
  pageCount : s'.pageCount = s.pageCount
  dirty : s'.dirty = s.dirty
  dirtyPages : s'.dirtyPages = s.dirtyPages
  writeGenerations : s'.writeGenerations = s.writeGenerations
  marked : ∀ p, s'.marked p = true → s.marked p = true ∨ p < s.pageCount

theorem marking_markAddress (s : JitPageState) (pa : U64) : Marking s (s.markAddress pa).2 := by
  unfold markAddress
  cases hp : s.pageForAddress pa with
  | none => exact ⟨rfl, rfl, rfl, rfl, fun _ => Or.inl⟩
  | some page =>
    refine ⟨rfl, rfl, rfl, rfl, fun p hm => ?_⟩
    change (if p = page then true else s.marked p) = true at hm
    split_ifs at hm with hpage
    · right
      unfold pageForAddress at hp
      dsimp only at hp
      split_ifs at hp with _ hlt
      rw [hpage, ← Option.some.inj hp]
      exact hlt
    · exact Or.inl hm

/-- **Marking** leaves no store row to the page. -/
theorem sound_codeMarkPage {m : Machine VirtBus} (h : Sound m) (pa : U64) : Sound (codeMarkPage m pa) := by
  have hmark := marking_markAddress m.bus.jit pa
  have hsized : Sized ({ m.bus with jit := (m.bus.jit.markAddress pa).2 }).dma := ⟨h.sized.1, by
    change m.bus.ram.len ≤ (m.bus.jit.markAddress pa).2.pageCount * 4096
    rw [hmark.pageCount]
    exact h.sized.2⟩
  unfold codeMarkPage
  dsimp only
  cases hnew : (m.bus.jit.markAddress pa).1 with
  | false =>
    exact h.bus (d := { m.bus with jit := (m.bus.jit.markAddress pa).2 }) hsized rfl rfl fun pa' hpa =>
      (markAddress_fst hnew pa').trans hpa
  | true =>
    rw [if_pos rfl]
    refine ⟨h.system, Cpu.SameContext.synced (c := m.cpu) (.of_eq rfl rfl) h.synced, hsized, h.moved, fun i hv satp hs => ?_⟩
    change (if (1 : Fin 2) = 1 ∧ (m.cpu.tlbTag 2 i ≠ m.cpu.jtlbTag 1 i ∨ m.cpu.mapsPage pa i = true) then TLB_INVALID
      else m.cpu.jtlbTag 1 i) ≠ TLB_INVALID at hv
    by_cases hdrop : (1 : Fin 2) = 1 ∧ (m.cpu.tlbTag 2 i ≠ m.cpu.jtlbTag 1 i ∨ m.cpu.mapsPage pa i = true)
    · rw [if_pos hdrop] at hv
      exact absurd rfl hv
    · rw [if_neg hdrop] at hv
      obtain ⟨ctx, va, pa', hrow⟩ := h.row i hv satp hs
      rw [not_and, not_or, not_not] at hdrop
      obtain ⟨htag, hmaps⟩ := hdrop rfl
      have hother : ¬ SamePage pa' pa := fun hsame => by
        apply hmaps
        unfold Cpu.mapsPage
        have hbase : m.cpu.mappedPage i (m.cpu.jtlbTag 1 i) = pa &&& ~~~(0xfff : U64) := by
          rw [hrow.tag, mappedPage_tagOf (h.moved 2 i), pageBase_eq, pageBase_eq, hrow.agrees htag, hsame]
        simp [hv, htag, hbase, show Access.store.row = 2 from rfl]
      have hkeep : (m.cpu.invalidateStoreJtlbPage pa).2.jtlbTag 1 i = m.cpu.jtlbTag 1 i :=
        if_neg fun hx => hx.2.elim (fun hne => hne htag) hmaps
      refine ⟨ctx, va, pa', hrow.small, hrow.index, hkeep.trans hrow.tag, hrow.off, hrow.inRam, hrow.offset,
        (markAddress_other hother).trans hrow.unmarked, ?_, ?_⟩
      · rw [hkeep]
        exact hrow.agrees
      · rw [hkeep]
        exact hrow.untranslated

/-! ## Compiled stores -/

theorem onRamPage_toNat {b : VirtBus} {pa : U64} (h : OnRamPage b pa) :
    RAM_BASE.toNat ≤ pa.toNat ∧ pa.toNat / 4096 * 4096 + 4096 ≤ RAM_BASE.toNat + b.ram.len := by
  unfold OnRamPage at h
  rw [not_or, BitVec.not_lt, ge_iff_le, BitVec.not_le] at h
  obtain ⟨h1, h2⟩ := h
  have hfits := b.ram.fits
  have hbase : RAM_BASE.toNat = 2147483648 := rfl
  have hlast : (pa ||| 0xfff).toNat = pa.toNat / 4096 * 4096 + 4095 := by
    rw [BitVec.toNat_or, show (0xfff : U64).toNat = 2 ^ 12 - 1 from rfl]
    have hdiv := Nat.div_add_mod pa.toNat (2 ^ 12)
    have hmod := Nat.mod_lt pa.toNat (show 0 < 2 ^ 12 by decide)
    have hor : pa.toNat ||| (2 ^ 12 - 1) = 2 ^ 12 * (pa.toNat / 2 ^ 12) ||| (2 ^ 12 - 1) := by
      apply Nat.eq_of_testBit_eq
      intro i
      rw [Nat.testBit_or, Nat.testBit_or, Nat.testBit_two_pow_sub_one, Nat.testBit_two_pow_mul]
      by_cases hi : i < 12
      · simp [hi]
      · rw [Nat.testBit_div_two_pow]
        simp [hi, show 12 ≤ i by omega, show i - 12 + 12 = i by omega]
    rw [hor, ← Nat.two_pow_add_eq_or_of_lt (by decide)]
    omega
  rw [BitVec.lt_def, hlast, BitVec.toNat_add, BitVec.toNat_ofNat] at h2
  rw [BitVec.le_def] at h1
  omega

/-- Where a hit of a fused store row leads: the page of the row, at the offset of the address. -/
structure Reaches (b : VirtBus) (va addr pa : U64) : Prop where
  addr : addr = b.ram.ptr + (pa - RAM_BASE)
  inRam : OnRamPage b pa
  offset : pa.toNat % 4096 = va.toNat % 4096
  unmarked : b.jit.addressMarked pa = false

theorem moved_page {va va' pa : U64} (hp : SamePage va va') (ho : pa.toNat % 4096 = va.toNat % 4096) :
    SamePage (va' + (pa - va)) pa ∧ (va' + (pa - va)).toNat % 4096 = va'.toNat % 4096 := by
  rw [samePage_iff] at hp ⊢
  have h1 := va.isLt
  have h2 := va'.isLt
  have h3 := pa.isLt
  rw [BitVec.toNat_add, BitVec.toNat_sub]
  constructor <;> omega

theorem onRamPage_page {b : VirtBus} {pa pa' : U64} (h : SamePage pa' pa) (hp : OnRamPage b pa) : OnRamPage b pa' := by
  obtain ⟨h1, h2⟩ := onRamPage_toNat hp
  have hpage := samePage_iff.1 h
  have hbase : RAM_BASE.toNat = 2147483648 := rfl
  have hor : ∀ x y : U64, SamePage x y → x ||| 0xfff = y ||| 0xfff := fun x y hxy => by
    apply BitVec.eq_of_getLsbD_eq
    intro i hi
    rw [BitVec.getLsbD_or, BitVec.getLsbD_or, show (0xfff : U64) = 1#64 <<< 12 - 1 from rfl]
    by_cases h12 : i < 12
    · rw [lowMask_bit (by omega) h12, Bool.or_true, Bool.or_true]
    · rw [hxy.bit (not_lt.1 h12)]
  unfold OnRamPage at hp ⊢
  rw [hor _ _ h]
  rw [not_or] at hp ⊢
  refine ⟨?_, hp.2⟩
  rw [BitVec.lt_def]
  omega

/-- **A hit** of a fused store row leads to an unmarked page of RAM. -/
theorem fusedIndex_reaches {m : Machine VirtBus} (h : Sound m) {va addr : U64} (hf : fusedIndex m.cpu va true = some addr) :
    ∃ pa, Reaches m.bus va addr pa := by
  obtain ⟨s, hs⟩ := h.isSome
  unfold fusedIndex at hf
  dsimp only at hf
  rw [h.synced.tag] at hf
  split_ifs at hf with htag
  have hvalid : m.cpu.jtlbTag 1 (Cpu.tlbIndex va) ≠ TLB_INVALID := fun hi =>
    tagOf_ne_invalid m.cpu.translationContext_lt va (htag.symm.trans hi)
  obtain ⟨ctx, va', pa, hrow⟩ := h.row _ hvalid s.satp (by rw [hs]; rfl)
  have hpage : SamePage va' va := (tagOf_inj hrow.small m.cpu.translationContext_lt (hrow.tag.symm.trans htag)).2
  obtain ⟨hsame, hoff⟩ := moved_page hpage hrow.offset
  refine ⟨va + (pa - va'), ?_, onRamPage_page hsame hrow.inRam, hoff, (addressMarked_page hsame).trans hrow.unmarked⟩
  rw [← Option.some.inj hf, show jitRow true = 1 from rfl, hrow.off]
  abel

/-- **A compiled store** changes no marked page. -/
theorem watched_compiledStore (w : Width) (va val : U64) (m : Machine VirtBus) : Watched m (compiledStore w va val m) := by
  unfold compiledStore
  split_ifs with hcross
  · exact .refl m
  cases hf : (fusedIndex m.cpu va true).bind fun addr => m.bus.ram.linear addr w.bytes with
  | none => exact .refl m
  | some off =>
    intro h
    obtain ⟨addr, haddr, hlin⟩ := Option.bind_eq_some_iff.1 hf
    obtain ⟨pa, hpa⟩ := fusedIndex_reaches h haddr
    obtain ⟨h1, h2⟩ := onRamPage_toNat hpa.inRam
    have hlen : m.bus.ram.len ≤ m.bus.jit.pageCount * 4096 := h.sized.2
    have hbase : RAM_BASE.toNat = 2147483648 := rfl
    have hle : RAM_BASE ≤ pa := BitVec.le_def.2 h1
    have hsub : (pa - RAM_BASE).toNat = pa.toNat - RAM_BASE.toNat := BitVec.toNat_sub_of_le hle
    unfold GuestRam.linear at hlin
    split_ifs at hlin with hin
    have hoff : off = pa.toNat - RAM_BASE.toNat := by
      rw [← Option.some.inj hlin, hpa.addr, add_comm, BitVec.add_sub_cancel, hsub]
    rw [offset_toNat] at hcross
    have hva := hpa.offset
    have hclean : ∀ i, off ≤ i → i < off + w.bytes → m.bus.jit.marked (i / 4096) = false := fun i hi hi' => by
      have hpage : i / 4096 = (pa - RAM_BASE).toNat / 4096 := by omega
      have hu := hpa.unmarked
      unfold addressMarked at hu
      rw [pageForAddress_eq hle (by omega)] at hu
      rw [hpage]
      exact hu
    have ho : Observed m.bus.dma (m.bus.storeRam off w.bytes val).dma := by
      refine ⟨h.sized, .refl _, fun i hne hm => ?_⟩
      change (if off ≤ i ∧ i < off + w.bytes then byteOf val (i - off) else m.bus.ram.mem i) ≠ m.bus.ram.mem i at hne
      split_ifs at hne with hi
      · exact absurd ((hclean i hi.1 hi.2).symm.trans hm) Bool.noConfusion
      · exact absurd rfl hne
    exact ⟨h.tracked ⟨rfl, rfl, rfl, rfl, rfl, rfl, id⟩ fun _ => ho, ⟨rfl, rfl, rfl, rfl, rfl, rfl, id⟩, ho⟩

end Lish
