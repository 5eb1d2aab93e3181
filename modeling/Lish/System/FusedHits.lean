import Lish.System.CodeObserved
import Lish.System.LoadRows
/-!
# FusedHits — a hit of compiled code is an access of the hart

Compiled code that finds its row takes no further check.  Where every change of an entry under a cached load has been
followed by a full fence, the access of the hart would succeed, set no bit in the page tables and touch the same bytes.
-/
namespace Lish

open Machine Tables JitPageState

/-! ## One access -/

/-- A page of RAM, at its place in linear memory and at its physical address. -/
theorem ram_offsets {b : VirtBus} {va addr pa : U64} {n : ℕ} (haddr : addr = b.ram.ptr + (pa - RAM_BASE)) (hin : OnRamPage b pa)
    (hoff : pa.toNat % 4096 = va.toNat % 4096) (hn : InPage va n) :
    b.ram.linear addr n = some (pa - RAM_BASE).toNat ∧ b.ram.flat.offset pa n = some (pa - RAM_BASE).toNat := by
  obtain ⟨h1, h2⟩ := onRamPage_toNat hin
  unfold InPage at hn
  rw [offset_toNat] at hn
  have hle : RAM_BASE ≤ pa := BitVec.le_def.2 h1
  have hsub : (pa - RAM_BASE).toNat = pa.toNat - RAM_BASE.toNat := BitVec.toNat_sub_of_le hle
  have hfit : (pa - RAM_BASE).toNat + n ≤ b.ram.len := by omega
  have hlen := b.ram.len_lt
  have hptr := b.ram.ptr_fits
  have hbase : RAM_BASE.toNat = 2147483648 := rfl
  constructor
  · have hdiff : addr - b.ram.ptr = pa - RAM_BASE := by
      rw [haddr]
      abel
    unfold GuestRam.linear
    rw [hdiff]
    refine if_pos ⟨?_, hfit⟩
    rw [haddr, BitVec.le_def, BitVec.toNat_add, Nat.mod_eq_of_lt (by omega)]
    omega
  · unfold FlatMemory.offset
    change (if pa < RAM_BASE then none else _) = _
    rw [if_neg (BitVec.not_lt.2 hle)]
    exact if_pos ⟨by change (pa - RAM_BASE).toNat + n < 2 ^ 64; omega, hfit⟩

theorem noteStore_unmarked {s : JitPageState} {pa : U64} (h : s.addressMarked pa = false) : s.noteStore pa = s := by
  unfold addressMarked at h
  unfold noteStore
  cases hp : s.pageForAddress pa with
  | none => rfl
  | some page =>
    rw [hp] at h
    dsimp only at h ⊢
    unfold notePageWrite
    rw [h]
    rfl

theorem busRead_ram {w : Width} {b : VirtBus} {pa : U64} {off : ℕ} (h : b.ram.flat.offset pa w.bytes = some off) :
    Bus.read w b pa = (.ok (b.ram.flat.readBytes off w.bytes), b) := by
  change VirtBus.busRead w b pa = _
  unfold VirtBus.busRead
  rw [h]

theorem busWrite_unmarked {w : Width} {b : VirtBus} {pa val : U64} {off : ℕ} (h : b.ram.flat.offset pa w.bytes = some off)
    (hm : b.jit.addressMarked pa = false) : Bus.write w b pa val = (.ok (), b.storeRam off w.bytes val) := by
  change VirtBus.busWrite w b pa val = _
  unfold VirtBus.busWrite
  rw [noteStore_unmarked hm]
  dsimp only
  rw [h]

/-- A load on one page is a translation and a read. -/
theorem ld_run {β : Type} [Bus β] {w : Width} {va pa : U64} (hn : InPage va w.bytes) {m m' : Machine β}
    (h : m.translateFill va false = (.ok pa, m')) : (Hart.ld w va).run exec m = m'.onBus (Bus.read w m'.bus pa) := by
  have hsplit : Hart.splits m.cpu va w = false := by
    unfold Hart.splits
    rw [decide_eq_false (not_lt.2 hn), Bool.and_false]
  change (Program.op HartOp.get fun c => _).run exec m = _
  rw [Program.run_op_ok (show exec .get m = (.ok m.cpu, m) from rfl), Program.pure_bind, hsplit]
  change (Program.op (HartOp.translateFill va false) fun pa => _).run exec m = _
  rw [Program.run_op_ok (show exec (.translateFill va false) m = (.ok pa, m') from h)]
  change (Program.op (HartOp.read w pa) Program.pure).run exec m' = _
  rw [Program.run_op, show exec (.read w pa) m' = m'.onBus (Bus.read w m'.bus pa) from rfl]
  rcases m'.onBus (Bus.read w m'.bus pa) with ⟨e | v, t⟩ <;> rfl

/-- A store on one page is a translation and a write. -/
theorem st_run {β : Type} [Bus β] {w : Width} {va val pa : U64} (hn : InPage va w.bytes) {m m' : Machine β}
    (h : m.translateFill va true = (.ok pa, m')) : (Hart.st w va val).run exec m = m'.onBus (Bus.write w m'.bus pa val) := by
  have hsplit : Hart.splits m.cpu va w = false := by
    unfold Hart.splits
    rw [decide_eq_false (not_lt.2 hn), Bool.and_false]
  change (Program.op HartOp.get fun c => _).run exec m = _
  rw [Program.run_op_ok (show exec .get m = (.ok m.cpu, m) from rfl), Program.pure_bind, hsplit]
  change (Program.op (HartOp.translateFill va true) fun pa => _).run exec m = _
  rw [Program.run_op_ok (show exec (.translateFill va true) m = (.ok pa, m') from h)]
  change (Program.op (HartOp.write w pa val) Program.pure).run exec m' = _
  rw [Program.run_op, show exec (.write w pa val) m' = m'.onBus (Bus.write w m'.bus pa val) from rfl]
  rcases m'.onBus (Bus.write w m'.bus pa val) with ⟨e | v, t⟩ <;> rfl

/-- A settled load is translated without a change of the bus. -/
theorem translate_settled {m : Machine VirtBus} (h : LoadRows m) {s : SysCsrs} (hs : m.cpu.sys = some s) {va pa : U64}
    (hq : Settled (tables m.bus) s.satp ⟨.load, m.cpu.translationContext, va⟩ pa) :
    ∃ c, m.translate va .load = (.ok pa, ⟨c, m.bus⟩) ∧ TlbOnly m.cpu c := by
  have hram : TablesInRam m va .load := tablesInRam_of_walked hs hq.1
  have hsame : ∀ v, Settled (tables m.bus) s.satp ⟨.load, m.cpu.translationContext, va⟩ v → v = pa := fun v hv =>
    Option.some.inj (hv.1.symm.trans hq.1)
  have hframe := (translate_frame VirtBus.busRel_steady.paged m va .load).2
  have hok := (h.translate hram).2 s
  rcases translate_cases m hs va .load with ⟨v, he, hhit⟩ | ⟨hmiss, -⟩
  · rw [he]
    refine ⟨m.cpu, ?_, .refl _⟩
    rw [hsame v (h.tlb s hs _ _ _ hhit)]
  · have hslow : m.translate va .load = m.translateSlow va .load := by
      unfold Machine.translate
      rw [hs]
      dsimp only
      refine if_neg fun htag => ?_
      rw [tlb_hit htag] at hmiss
      cases hmiss
    cases hb : bare s.satp m.cpu.translationContext .load with
    | true =>
      have hself : m.translateSlow va .load = (.ok va, m) := by
        unfold bare at hb
        rw [Cpu.modeOf_context hs, decide_eq_true_iff] at hb
        unfold translateSlow
        rw [hs]
        exact if_pos hb
      rw [hslow, hself]
      refine ⟨m.cpu, ?_, .refl _⟩
      rw [hsame va ⟨if_pos hb, fun hf => absurd (hb.symm.trans hf) Bool.noConfusion⟩]
    | false =>
      have hstill := (translateSlow_settles hs hram hb).still (hq.2 hb)
      have hfst := (translateSlow_walks hs hram).1
      rw [show walked m s va .load = some pa from hq.1] at hfst
      rw [hslow] at hframe ⊢
      refine ⟨(m.translateSlow va .load).2.cpu, ?_, hframe⟩
      rw [← hstill]
      exact Prod.ext hfst rfl

/-- **A load that hits** its fused row. -/
theorem fused_load {m : Machine VirtBus} (hm : Sound m) (h : LoadRows m) {w : Width} {va addr : U64} (hn : InPage va w.bytes)
    (hf : fusedIndex m.cpu va false = some addr) :
    ∃ off c, m.bus.ram.linear addr w.bytes = some off ∧ TlbOnly m.cpu c ∧
      (Hart.ld w va).run exec m = (.ok (m.bus.ram.flat.readBytes off w.bytes), ⟨c, m.bus⟩) := by
  obtain ⟨s, hs⟩ := hm.isSome
  unfold fusedIndex at hf
  dsimp only at hf
  rw [hm.synced.tag] at hf
  split_ifs at hf with htag
  have hrow : m.cpu.jtlb ⟨.load, m.cpu.translationContext, va⟩ = some (m.cpu.jtlbOff 0 (Cpu.tlbIndex va)) :=
    if_pos ⟨fun he => (nomatch he), m.cpu.translationContext_lt, htag⟩
  obtain ⟨pa, hset, hpage, hoff⟩ := h.jtlb s hs _ _ _ hrow
  have haddr : addr = m.bus.ram.ptr + (pa - RAM_BASE) := by
    rw [← Option.some.inj hf, show jitRow false = 0 from rfl, hoff]
    abel
  obtain ⟨hlin, hflat⟩ := ram_offsets haddr hpage (walk_offset hset.1) hn
  obtain ⟨c, hc, hframe⟩ := translate_settled h hs hset
  have hbus := (fillJtlb_frame (⟨c, m.bus⟩ : Machine VirtBus) va pa false).1
  have hfill := (fillJtlb_frame (⟨c, m.bus⟩ : Machine VirtBus) va pa false).2
  have htf : m.translateFill va false = (.ok pa, (⟨c, m.bus⟩ : Machine VirtBus).fillJtlb va pa false) := by
    unfold Machine.translateFill
    rw [show (if false = true then Access.store else Access.load) = .load from rfl, hc]
  refine ⟨_, ((⟨c, m.bus⟩ : Machine VirtBus).fillJtlb va pa false).cpu, hlin, hframe.trans hfill, ?_⟩
  rw [ld_run hn htf, hbus, busRead_ram hflat]
  rfl

/-- A page is moved by its row as a whole. -/
theorem moved_eq {va va' pa d : U64} (hp : SamePage va va') (ho : pa.toNat % 4096 = va.toNat % 4096) (hd : d.toNat % 4096 = 0)
    (h : SamePage (va + d) pa) : va' + d = va' + (pa - va) := by
  rw [samePage_iff] at hp h
  have h1 := va.isLt
  have h2 := va'.isLt
  have h3 := pa.isLt
  have h4 := d.isLt
  rw [BitVec.toNat_add] at h
  apply BitVec.eq_of_toNat_eq
  rw [BitVec.toNat_add, BitVec.toNat_add, BitVec.toNat_sub]
  omega

/-- **A store that hits** its fused row. -/
theorem fused_store {m : Machine VirtBus} (hm : Sound m) {w : Width} {va val addr : U64} (hn : InPage va w.bytes)
    (hf : fusedIndex m.cpu va true = some addr) :
    ∃ off c, m.bus.ram.linear addr w.bytes = some off ∧ TlbOnly m.cpu c ∧
      (Hart.st w va val).run exec m = (.ok (), ⟨c, m.bus.storeRam off w.bytes val⟩) := by
  obtain ⟨s, hs⟩ := hm.isSome
  unfold fusedIndex at hf
  dsimp only at hf
  rw [hm.synced.tag] at hf
  split_ifs at hf with htag
  have hvalid : m.cpu.jtlbTag 1 (Cpu.tlbIndex va) ≠ TLB_INVALID := fun hi =>
    tagOf_ne_invalid m.cpu.translationContext_lt va (htag.symm.trans hi)
  obtain ⟨ctx, va', pa, hrow⟩ := hm.row _ hvalid s.satp (by rw [hs]; rfl)
  obtain ⟨hctx, hpage⟩ := tagOf_inj hrow.small m.cpu.translationContext_lt (hrow.tag.symm.trans htag)
  obtain ⟨hsame, hoff⟩ := moved_page hpage hrow.offset
  have haddr : addr = m.bus.ram.ptr + (va + (pa - va') - RAM_BASE) := by
    rw [← Option.some.inj hf, show jitRow true = 1 from rfl, hrow.off]
    abel
  obtain ⟨hlin, hflat⟩ := ram_offsets haddr (onRamPage_page hsame hrow.inRam) hoff hn
  have ht : m.translate va .store = (.ok (va + (pa - va')), m) := by
    by_cases htlb : m.cpu.tlbTag 2 (Cpu.tlbIndex va) = m.cpu.translationTag va
    · have hmoved := moved_eq hpage hrow.offset (hm.moved 2 _) (hrow.agrees (htlb.trans htag.symm))
      unfold Machine.translate
      rw [hs]
      dsimp only
      rw [show Access.store.row = 2 from rfl, if_pos htlb, hmoved]
    · obtain ⟨hbare, rfl⟩ := hrow.untranslated fun he => htlb (he.trans htag)
      unfold bare at hbare
      rw [hctx, Cpu.modeOf_context hs, decide_eq_true_iff] at hbare
      unfold Machine.translate
      rw [hs]
      dsimp only
      rw [show Access.store.row = 2 from rfl, if_neg htlb]
      unfold translateSlow
      rw [hs]
      dsimp only
      rw [if_pos hbare, BitVec.sub_self, BitVec.add_zero]
  obtain ⟨hbus, hfill⟩ := fillJtlb_frame m va (va + (pa - va')) true
  have htf : m.translateFill va true = (.ok (va + (pa - va')), m.fillJtlb va (va + (pa - va')) true) := by
    unfold Machine.translateFill
    rw [show (if true = true then Access.store else Access.load) = .store from rfl, ht]
  refine ⟨_, (m.fillJtlb va (va + (pa - va')) true).cpu, hlin, hfill, ?_⟩
  rw [st_run hn htf, hbus, busWrite_unmarked hflat ((addressMarked_page hsame).trans hrow.unmarked)]
  rfl

/-! ## Fences -/

/-- The hart, with whether every change of an entry under a cached load has been followed by a full fence: one that leaves no
row.  Walks are to read their entries from RAM. -/
def execFenced : Handler hartOps Exception (Machine VirtBus × Prop) := fun o s =>
  ((exec o s.1).1, (exec o s.1).2,
    Cpu.Flushed (exec o s.1).2.cpu ∨ s.2 ∧ TableGuard s.1 o ∧ Kept s.1 (exec o s.1).2)

theorem execFenced_flushTlb (s : Machine VirtBus × Prop) : (execFenced (.cpu .flushTlb) s).2.2 := Or.inl (Cpu.flushed_flushTlb s.1.cpu)

/-- A cached load is settled where the fences say so. -/
def Fenced (s : Machine VirtBus × Prop) : Prop := s.2 → LoadRows s.1

theorem fenced_exec (o : HartOp) {s : Machine VirtBus × Prop} (h : Fenced s) : Fenced (execFenced o s).2 := by
  rintro (hf | ⟨hs, hg, hk⟩)
  · exact .flushed hf
  · exact (h hs).exec hg hk

theorem fenced_run {α : Type} (p : Hart α) {s : Machine VirtBus × Prop} (h : Fenced s) : Fenced (p.run execFenced s).2 :=
  Program.run_invariant (P := fun _ _ => True) (fun _ _ ht _ => fenced_exec _ ht) p h (Program.guarded_true _ _ _)

/-- Watching the fences does not change the run. -/
theorem run_fenced {α : Type} (p : Hart α) (s : Machine VirtBus × Prop) : (p.run execFenced s).2.1 = (p.run exec s.1).2 := by
  induction p generalizing s with
  | pure a => rfl
  | throw e => rfl
  | op o k ih =>
    have h1 : (execFenced o s).1 = (exec o s.1).1 := rfl
    have h2 : (execFenced o s).2.1 = (exec o s.1).2 := rfl
    rw [Program.run_op, Program.run_op]
    rcases hf : execFenced o s with ⟨r, t⟩
    rcases he : exec o s.1 with ⟨r', m⟩
    rw [hf, he] at h1 h2
    dsimp only at h1 h2
    subst h1 h2
    cases r with
    | ok r => exact ih r t
    | error e => rfl

namespace CodeEvent

/-- An event, with whether the changes of entries are fenced. -/
def applyFenced (s : Machine VirtBus × Prop) : CodeEvent → Machine VirtBus × Prop
  | step host => ((Hart.step host).run execFenced s).2
  | decoded host d => ((Hart.executeDecoded host d).run execFenced s).2
  | trap e => ((Hart.exceptionToTrap e).run execFenced s).2
  | poll => (Hart.pollTaken.run execFenced s).2
  | probe va => (execFenced (.translate va .fetch) s).2
  | fill va store => (execFenced (.translateFill va store) s).2
  | e => (apply s.1 e, Cpu.Flushed (apply s.1 e).cpu ∨ s.2 ∧ Kept s.1 (apply s.1 e))

/-- After a run: whether every change of an entry under a cached load was followed by a full fence. -/
def fencedAfter (es : List CodeEvent) (m : Machine VirtBus) : Prop := (es.foldl applyFenced (m, True)).2

theorem jitProbeFetch_snd {β : Type} [Bus β] (m : Machine β) (va : U64) : (m.jitProbeFetch va).2 = (m.translate va .fetch).2 := by
  unfold jitProbeFetch
  rcases m.translate va .fetch with ⟨e | pa, m'⟩ <;> rfl

theorem jitFillTlb_snd {β : Type} [Bus β] (m : Machine β) (va : U64) (store : Bool) :
    (m.jitFillTlb va store).2 = (m.translateFill va store).2 := by
  unfold jitFillTlb translateFill
  rcases m.translate va (if store then .store else .load) with ⟨e | pa, m'⟩ <;> rfl

theorem applyFenced_fst (s : Machine VirtBus × Prop) (e : CodeEvent) : (applyFenced s e).1 = apply s.1 e := by
  cases e with
  | step host => exact run_fenced _ s
  | decoded host d => exact run_fenced _ s
  | trap e => exact run_fenced _ s
  | poll => exact run_fenced _ s
  | probe va => exact (jitProbeFetch_snd s.1 va).symm
  | fill va store => exact (jitFillTlb_snd s.1 va store).symm
  | _ => rfl

theorem runFenced_fst (es : List CodeEvent) (s : Machine VirtBus × Prop) : (es.foldl applyFenced s).1 = run es s.1 := by
  induction es generalizing s with
  | nil => rfl
  | cons e es ih =>
    rw [List.foldl_cons, ih, applyFenced_fst]
    rfl

/-- An event that is no computation of the hart drops rows at most, and keeps the extent of RAM. -/
theorem apply_calm {m : Machine VirtBus} (h : Ordered m) {e : CodeEvent} (hc : Cpu.Calm m.cpu (apply m e).cpu)
    (hk : Kept m (apply m e)) (hr : LoadRows m) : LoadRows (apply m e) := by
  have hram : (apply m e).bus.ram.len = m.bus.ram.len ∧ (apply m e).bus.ram.ptr = m.bus.ram.ptr := by
    by_cases he : e.Writes
    · obtain ⟨-, hs, -⟩ := watched_apply he m h.sound
      exact ⟨hs.len, hs.ptr⟩
    · cases e with
      | mark pa => exact ⟨rfl, rfl⟩
      | drain => exact ⟨rfl, rfl⟩
      | unmark page => exact ⟨rfl, rfl⟩
      | _ => exact absurd trivial he
  have hbus : LoadRows ⟨m.cpu, (apply m e).bus⟩ := hr.bus hk hram.1 hram.2
  exact hbus.calm hc

theorem drops_invalidate (c : Cpu) (pa : U64) : Cpu.Drops c (c.invalidateStoreJtlbPage pa).2 := by
  refine .of_rows (fun r i => Or.inl rfl) rfl (fun r i => ?_) rfl
  unfold Cpu.invalidateStoreJtlbPage
  dsimp only
  split_ifs
  · exact Or.inr rfl
  · exact Or.inl rfl

theorem fenced_apply {s : Machine VirtBus × Prop} (ho : Ordered s.1) (h : Fenced s) (e : CodeEvent) : Fenced (applyFenced s e) := by
  have hother : ∀ e : CodeEvent, Cpu.Calm s.1.cpu (apply s.1 e).cpu →
      Fenced (apply s.1 e, Cpu.Flushed (apply s.1 e).cpu ∨ s.2 ∧ Kept s.1 (apply s.1 e)) := fun e hc hf =>
    hf.elim .flushed fun hk => apply_calm ho hc hk.2 (h hk.1)
  cases e with
  | step host => exact fenced_run _ h
  | decoded host d => exact fenced_run _ h
  | trap e => exact fenced_run _ h
  | poll => exact fenced_run _ h
  | probe va => exact fenced_exec _ h
  | fill va store => exact fenced_exec _ h
  | compiled w va val =>
    refine hother _ (Cpu.SameRows.calm ?_)
    change Cpu.SameRows s.1.cpu (compiledStore w va val s.1).cpu
    unfold compiledStore
    split_ifs
    · exact .refl _
    · cases (fusedIndex s.1.cpu va true).bind fun addr => s.1.bus.ram.linear addr w.bytes <;> exact .refl _
  | compute x f pc insnCount => exact hother _ (Cpu.SameRows.calm ⟨rfl, rfl, rfl, rfl, rfl⟩)
  | dma addr bytes => exact hother _ (Cpu.SameRows.refl _).calm
  | device i qi => exact hother _ (Cpu.SameRows.refl _).calm
  | input bytes => exact hother _ (Cpu.SameRows.refl _).calm
  | mark pa =>
    refine hother _ ?_
    change Cpu.Calm s.1.cpu (codeMarkPage s.1 pa).cpu
    unfold codeMarkPage
    dsimp only
    split_ifs
    · exact ⟨rfl, drops_invalidate _ _⟩
    · exact (Cpu.SameRows.refl _).calm
  | drain => exact hother _ (Cpu.SameRows.refl _).calm
  | unmark page => exact hother _ (Cpu.SameRows.refl _).calm
  | flush => exact hother _ (Cpu.calm_apply s.1.cpu .flushTlb)
  | flushPage va => exact hother _ (Cpu.calm_apply s.1.cpu (.flushTlbPage va))

theorem fenced_events {s : Machine VirtBus × Prop} (ho : Ordered s.1) (h : Fenced s) (es : List CodeEvent) :
    Fenced (es.foldl applyFenced s) := by
  induction es generalizing s with
  | nil => exact h
  | cons e es ih =>
    refine ih ?_ (fenced_apply ho h e)
    rw [applyFenced_fst]
    exact ho.apply e

/-- **A hit of compiled code is a correct access.** -/
theorem fused_hit_correct (ram : GuestRam) (virtio : List VirtioDev) (directSbi : Bool) (dtbAddr dynAddr : U64) (passes : ℕ)
    (es : List CodeEvent) :
    let boot := (VirtMachine.new ram virtio directSbi dtbAddr dynAddr passes).hart
    let m := run es boot
    m.cpu.jitTlbContextTag = m.cpu.translationContext <<< TLB_CONTEXT_SHIFT ∧
      (fencedAfter es boot → ∀ w va addr, InPage va w.bytes →
        (fusedIndex m.cpu va false = some addr → ∃ off c, m.bus.ram.linear addr w.bytes = some off ∧ TlbOnly m.cpu c ∧
          (Hart.ld w va).run exec m = (.ok (m.bus.ram.flat.readBytes off w.bytes), ⟨c, m.bus⟩)) ∧
        (fusedIndex m.cpu va true = some addr → ∀ val, ∃ off c, m.bus.ram.linear addr w.bytes = some off ∧ TlbOnly m.cpu c ∧
          (Hart.st w va val).run exec m = (.ok (), ⟨c, m.bus.storeRam off w.bytes val⟩))) := by
  intro boot m
  have hboot : Ordered boot := ordered_new ram virtio directSbi dtbAddr dynAddr passes
  have hm : Ordered m := hboot.run es
  have hc := fresh_new ram virtio directSbi dtbAddr dynAddr passes
  refine ⟨hm.sound.synced, fun hf w va addr hn => ⟨fun hit => ?_, fun hit val => fused_store hm.sound hn hit⟩⟩
  have hrows : LoadRows boot := .flushed (Cpu.flushed_of_invalid hc.tlbTag hc.jtlbTag)
  have hload := fenced_events (s := (boot, True)) hboot (fun _ => hrows) es hf
  rw [runFenced_fst] at hload
  exact fused_load hm.sound hload hn hit

/-- A machine that has filled the row of its first page, untranslated. -/
def filled : Machine VirtBus := (VirtMachine.new onePage [] false 0 0 0).hart

theorem fencedAfter_filled : fencedAfter [fill RAM_BASE false] filled := by
  have hc := fresh_new onePage [] false 0 0 0
  have hf : Cpu.Flushed filled.cpu := Cpu.flushed_of_invalid hc.tlbTag hc.jtlbTag
  refine Or.inr ⟨trivial, fun s hs a ha => ?_, fun s _ ctx va hq => ?_⟩
  · cases hs
    rw [show path _ _ _ _ _ = [] from if_pos (by decide)] at ha
    cases ha
  · dsimp only at hq
    rw [hf.1, hf.2] at hq
    exact absurd hq (by decide)

theorem fused_hit_correct_filled :
    InPage 0x80000ff8 8 ∧ fusedIndex (run [fill RAM_BASE false] filled).cpu 0x80000ff8 false = some 0xff8 ∧
      ∃ off c, (run [fill RAM_BASE false] filled).bus.ram.linear 0xff8 8 = some off ∧
        TlbOnly (run [fill RAM_BASE false] filled).cpu c ∧
        (Hart.ld .w8 0x80000ff8).run exec (run [fill RAM_BASE false] filled) =
          (.ok ((run [fill RAM_BASE false] filled).bus.ram.flat.readBytes off 8), ⟨c, (run [fill RAM_BASE false] filled).bus⟩) := by
  have hn : InPage 0x80000ff8 8 := by
    unfold InPage
    decide
  have hit : fusedIndex (run [fill RAM_BASE false] filled).cpu 0x80000ff8 false = some 0xff8 := by decide +kernel
  exact ⟨hn, hit, ((fused_hit_correct onePage [] false 0 0 0 [fill RAM_BASE false]).2 fencedAfter_filled .w8 0x80000ff8 0xff8 hn).1 hit⟩

/-! ## Tables in a device -/

/-- The root table lies in the registers of the serial port, which answer two entries and no third: CSR writes, a fill, and
the load of a device register whose row is that of the page filled. -/
def serialTables : List CodeEvent :=
  [input [0xcf, 0xcf], decoded none (.fromWord 0x30059073), decoded none (.fromWord 0x18061073), fill 0x80000000 false,
    decoded none (.fromWord 0x0c0002b7), decoded none (.fromWord 0x0002b283)]

/-- The paging mode and the status of the run below are in the registers at reset. -/
def serialBoot : Machine VirtBus := (VirtMachine.new onePage [] false 0x20800 0x9000000000010000 0).hart

/-- No store is made, and still a load that hits would fault. -/
theorem fused_hit_faults :
    (run serialTables serialBoot).bus.ram.mem = serialBoot.bus.ram.mem ∧
      fusedIndex (run serialTables serialBoot).cpu 0x80000000 false = some 0 ∧ InPage 0x80000000 8 ∧
      ((Hart.ld .w8 0x80000000).run exec (run serialTables serialBoot)).1.toOption = none := by
  refine ⟨rfl, by decide +kernel, ?_, by decide +kernel⟩
  unfold InPage
  decide

end CodeEvent
end Lish
