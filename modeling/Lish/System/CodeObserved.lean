import Lish.System.CodeEvents
/-!
# CodeObserved — what the dispatcher learns of writes to compiled code

From reset, over any run: no store row of compiled code leads to a marked page, a changed byte of a marked page leaves it
dirty with its generation moved, and a page clean at two moments with one generation is unchanged between them, unless as
many drains lie between as there are generations.
-/
namespace Lish

open Machine Tables JitPageState Dma

namespace CodeEvent

/-! ## Reset -/

/-- No row holds a translation yet. -/
structure Fresh (c : Cpu) : Prop where
  system : c.sys.isSome
  synced : c.Synced
  tlbDiff : ∀ r i, c.tlbDiff r i = 0
  tlbTag : ∀ r i, c.tlbTag r i = TLB_INVALID
  jtlbTag : ∀ r i, c.jtlbTag r i = TLB_INVALID

theorem fresh_new (ram : GuestRam) (virtio : List VirtioDev) (directSbi : Bool) (dtbAddr dynAddr : U64) (passes : ℕ) :
    Fresh (VirtMachine.new ram virtio directSbi dtbAddr dynAddr passes).hart.cpu := by
  unfold VirtMachine.new
  dsimp only
  cases directSbi with
  | true => exact ⟨rfl, Cpu.SameContext.synced (.of_eq rfl rfl) (Cpu.synced_refresh _), fun _ _ => rfl, fun _ _ => rfl, fun _ _ => rfl⟩
  | false => exact ⟨rfl, Cpu.SameContext.synced (.of_eq rfl rfl) (Cpu.synced_refresh _), fun _ _ => rfl, fun _ _ => rfl, fun _ _ => rfl⟩

/-- **A machine at reset** is in order. -/
theorem ordered_new (ram : GuestRam) (virtio : List VirtioDev) (directSbi : Bool) (dtbAddr dynAddr : U64) (passes : ℕ) :
    Ordered (VirtMachine.new ram virtio directSbi dtbAddr dynAddr passes).hart := by
  have hc := fresh_new ram virtio directSbi dtbAddr dynAddr passes
  have hpages : ram.len ≤ (ram.len + JIT_PAGE_SIZE - 1) / JIT_PAGE_SIZE * 4096 := by
    rw [show JIT_PAGE_SIZE = 4096 from rfl]
    omega
  have hsound : Sound (VirtMachine.new ram virtio directSbi dtbAddr dynAddr passes).hart := by
    refine ⟨hc.system, hc.synced, ⟨rfl, hpages⟩, fun r i => ?_, fun i hv => absurd (hc.jtlbTag 1 i) hv⟩
    rw [hc.tlbDiff]
    rfl
  exact ⟨hsound, List.nodup_nil, fun _ => ⟨fun h => (nomatch h), fun h => (nomatch h)⟩, fun _ h => (nomatch h),
    fun _ h => (nomatch h)⟩

/-! ## Rows and marks -/

/-- The physical page a fused store row leads to. -/
def storeRowPage (m : Machine VirtBus) (i : Fin tlbSize) : U64 :=
  ((m.cpu.jtlbTag 1 i &&& TLB_VPN_MASK) <<< 12) + m.cpu.jtlbOff 1 i - m.bus.ram.ptr + RAM_BASE

theorem storeRowPage_unmarked {m : Machine VirtBus} (h : Sound m) {i : Fin tlbSize} (hv : m.cpu.jtlbTag 1 i ≠ TLB_INVALID) :
    OnRamPage m.bus (storeRowPage m i) ∧ m.bus.jit.addressMarked (storeRowPage m i) = false := by
  obtain ⟨s, hs⟩ := h.isSome
  obtain ⟨ctx, va, pa, hrow⟩ := h.row i hv s.satp (by rw [hs]; rfl)
  have hpage : storeRowPage m i = (va >>> 12) <<< 12 + (pa - va) := by
    unfold storeRowPage
    rw [hrow.tag, Cpu.tagOf_vpn, hrow.off]
    abel
  have hbase : SamePage va ((va >>> 12) <<< 12) := by
    rw [samePage_iff, BitVec.toNat_shiftLeft, BitVec.toNat_ushiftRight, Nat.shiftRight_eq_div_pow, Nat.shiftLeft_eq]
    have := va.isLt
    omega
  have hsame := (moved_page hbase hrow.offset).1
  rw [hpage]
  exact ⟨onRamPage_page hsame hrow.inRam, (addressMarked_page hsame).trans hrow.unmarked⟩

/-! ## The tracker's answers -/

theorem isDirty_eq {s : JitPageState} (h : Listed s) (p : ℕ) : s.isDirty p = s.dirty p := by
  unfold isDirty
  cases hd : s.dirty p with
  | false => exact Bool.and_false _
  | true => rw [decide_eq_true (h.dirtyIn p hd), Bool.and_true]

theorem pageMarked_eq {s : JitPageState} (h : Listed s) (p : ℕ) : s.pageMarked p = s.marked p := by
  unfold pageMarked
  cases hm : s.marked p with
  | false => exact Bool.and_false _
  | true => rw [decide_eq_true (h.markedIn p hm), Bool.and_true]

theorem apply_pageCount {m : Machine VirtBus} (h : Ordered m) (e : CodeEvent) :
    (apply m e).bus.jit.pageCount = m.bus.jit.pageCount := by
  by_cases he : e.Writes
  · exact (watched_apply he m h.sound).2.2.noted.pageCount
  · cases e with
    | mark pa => exact (marking_markAddress m.bus.jit pa).pageCount
    | drain => rfl
    | unmark page =>
      change (m.bus.jit.unmarkPage page).pageCount = _
      unfold unmarkPage
      split_ifs <;> rfl
    | _ => exact absurd trivial he

theorem run_pageCount {m : Machine VirtBus} (h : Ordered m) (es : List CodeEvent) :
    (run es m).bus.jit.pageCount = m.bus.jit.pageCount := by
  induction es generalizing m with
  | nil => rfl
  | cons e es ih => exact (ih (h.apply e)).trans (apply_pageCount h e)

theorem pageGeneration_eq {s : JitPageState} {p : ℕ} (h : p < s.pageCount) : s.pageGeneration p = some (s.writeGenerations p) := if_pos h

/-! ## Runs -/

/-- A changed byte of a marked page leaves it dirty, a generation after the one it last was clean with. -/
theorem write_observed {m₀ : Machine VirtBus} (h : Ordered m₀) (es : List CodeEvent) (e : CodeEvent) {i : ℕ}
    (hne : (apply (run es m₀) e).bus.ram.mem i ≠ (run es m₀).bus.ram.mem i)
    (hm : (run es m₀).bus.jit.pageMarked (i / 4096) = true) :
    (apply (run es m₀) e).bus.jit.isDirty (i / 4096) = true ∧
      (m₀.bus.jit.isDirty (i / 4096) = false →
        (∀ k, 0 < k → k ≤ es.length → (run (es.take k) m₀).bus.jit.isDirty (i / 4096) = true) →
        (apply (run es m₀) e).bus.jit.pageGeneration (i / 4096) = (m₀.bus.jit.pageGeneration (i / 4096)).map (· + 1)) := by
  have ho := h.run es
  rw [pageMarked_eq ho.listed] at hm
  have hdirty := apply_dirty ho e hne hm
  rw [isDirty_eq (ho.apply e).listed]
  refine ⟨hdirty, fun hc hd => ?_⟩
  have hin : i / 4096 < m₀.bus.jit.pageCount := by
    rw [← run_pageCount h es]
    exact ho.listed.markedIn _ hm
  rw [pageGeneration_eq hin, pageGeneration_eq (by rw [apply_pageCount ho, run_pageCount h]; exact hin)]
  have hrun : run (es ++ [e]) m₀ = apply (run es m₀) e := run_append es [e] m₀
  rw [isDirty_eq h.listed] at hc
  rw [← hrun, run_generation h (es ++ [e]) (by simp) hc fun k hk hk' => ?_]
  · rfl
  · by_cases hlast : k ≤ es.length
    · rw [List.take_append_of_le_length hlast]
      have := hd k hk hlast
      rwa [isDirty_eq (h.run _).listed] at this
    · rw [List.length_append, List.length_singleton] at hk'
      rw [List.take_of_length_le (by rw [List.length_append, List.length_singleton]; omega), hrun]
      exact hdirty

/-- A page with one generation at two clean moments is unchanged between them, if fewer drains than generations lie between. -/
theorem same_generation {m : Machine VirtBus} (h : Ordered m) (es : List CodeEvent) {p : ℕ} (hm : m.bus.jit.pageMarked p = true)
    (hc : m.bus.jit.isDirty p = false) (hu : ∀ e ∈ es, e ≠ .unmark p) (hc' : (run es m).bus.jit.isDirty p = false)
    (hg : (run es m).bus.jit.pageGeneration p = m.bus.jit.pageGeneration p) (hn : es.countP isDrain < 2 ^ 64) :
    SameBytes m (run es m) p := by
  rw [pageMarked_eq h.listed] at hm
  rw [isDirty_eq h.listed] at hc
  rw [isDirty_eq (h.run es).listed] at hc'
  have hin := h.listed.markedIn p hm
  rw [pageGeneration_eq hin, pageGeneration_eq (by rw [run_pageCount h]; exact hin)] at hg
  obtain ⟨-, n, hgen, hle, hzero⟩ := run_firstWrites h hm hc es hu
  rw [hc', if_neg Bool.false_ne_true, add_zero] at hle
  have hn0 : BitVec.ofNat 64 n = 0 := by
    have hsome := Option.some.inj hg
    rw [hgen] at hsome
    exact add_eq_left.1 hsome
  have h0 : n = 0 := by
    have := congrArg BitVec.toNat hn0
    rw [BitVec.toNat_ofNat, Nat.mod_eq_of_lt (by omega)] at this
    exact this
  exact (hzero h0).2

/-- **No write to a marked page goes unobserved.** -/
theorem no_write_unobserved (ram : GuestRam) (virtio : List VirtioDev) (directSbi : Bool) (dtbAddr dynAddr : U64) (passes : ℕ)
    (es : List CodeEvent) :
    let boot := (VirtMachine.new ram virtio directSbi dtbAddr dynAddr passes).hart
    let m := run es boot
    (∀ i, m.cpu.jtlbTag 1 i ≠ TLB_INVALID → m.bus.jit.addressMarked (storeRowPage m i) = false) ∧
      (∀ e i, (apply m e).bus.ram.mem i ≠ m.bus.ram.mem i → m.bus.jit.pageMarked (i / 4096) = true →
        (apply m e).bus.jit.isDirty (i / 4096) = true ∧
          ∀ es₀ es₁, es = es₀ ++ es₁ → (run es₀ boot).bus.jit.isDirty (i / 4096) = false →
            (∀ k, 0 < k → k ≤ es₁.length → (run (es₁.take k) (run es₀ boot)).bus.jit.isDirty (i / 4096) = true) →
            (apply m e).bus.jit.pageGeneration (i / 4096) = ((run es₀ boot).bus.jit.pageGeneration (i / 4096)).map (· + 1)) ∧
      (m.bus.jit.dirtyPages.Nodup ∧ ∀ p, p ∈ m.bus.jit.dirtyPages ↔ m.bus.jit.isDirty p = true) ∧
      ∀ es' p, m.bus.jit.pageMarked p = true → m.bus.jit.isDirty p = false → (∀ e ∈ es', e ≠ .unmark p) →
        (run es' m).bus.jit.isDirty p = false →
        (run es' m).bus.jit.pageGeneration p = m.bus.jit.pageGeneration p → es'.countP isDrain < 2 ^ 64 →
        SameBytes m (run es' m) p := by
  intro boot m
  have hboot : Ordered boot := ordered_new ram virtio directSbi dtbAddr dynAddr passes
  have hm : Ordered m := hboot.run es
  refine ⟨fun i hv => (storeRowPage_unmarked hm.sound hv).2, fun e i hne hmark => ⟨?_, ?_⟩, ⟨hm.listed.nodup, fun p => ?_⟩,
    fun es' p h1 h2 h3 h4 h5 h6 => same_generation hm es' h1 h2 h3 h4 h5 h6⟩
  · exact (write_observed hboot es e hne hmark).1
  · rintro es₀ es₁ rfl hc hd
    have hsplit : m = run es₁ (run es₀ boot) := run_append es₀ es₁ boot
    rw [hsplit] at hne hmark ⊢
    exact (write_observed (hboot.run es₀) es₁ e hne hmark).2 hc hd
  · rw [isDirty_eq hm.listed]
    exact hm.listed.mem p

/-! ## As many drains as generations -/

/-- A page of zeros. -/
def onePage : GuestRam := ⟨4096, fun _ => 0, 0, RAM_page_fits, ptr_page_fits⟩

/-- A device writes the first byte of RAM, and the dispatcher looks, so many times. -/
def rewrites (n : ℕ) : List CodeEvent := (List.replicate n [dma RAM_BASE [1], drain]).flatten

/-- Page 0 is marked and clean, after so many rounds. -/
structure Rewritten (n : ℕ) (m : Machine VirtBus) : Prop where
  len : m.bus.ram.len = 4096
  pageCount : m.bus.jit.pageCount = 1
  marked : m.bus.jit.marked 0 = true
  clean : m.bus.jit.dirty 0 = false
  generation : m.bus.jit.writeGenerations 0 = BitVec.ofNat 64 n
  byte : m.bus.ram.mem 0 = if n = 0 then 0 else 1
  list : m.bus.jit.dirtyPages = []

theorem Rewritten.round {n : ℕ} {m : Machine VirtBus} (h : Rewritten n m) :
    Rewritten (n + 1) (apply (apply m (dma RAM_BASE [1])) drain) := by
  have hoff : m.bus.dma.ram.offset RAM_BASE 1 = some 0 := by
    have hbase : m.bus.dma.ram.base = RAM_BASE := rfl
    have hlen : m.bus.dma.ram.len = 4096 := h.len
    unfold FlatMemory.offset
    dsimp only
    rw [hbase, hlen, BitVec.sub_self, if_neg (BitVec.lt_irrefl RAM_BASE)]
    rfl
  have hpage : m.bus.jit.pageForAddress RAM_BASE = some 0 := by
    unfold pageForAddress
    rw [h.pageCount]
    decide
  have hnote : m.bus.jit.noteWrite RAM_BASE 1 = { m.bus.jit with
      writeGenerations := fun p => if p = 0 then m.bus.jit.writeGenerations p + 1 else m.bus.jit.writeGenerations p
      dirty := fun p => if p = 0 then true else m.bus.jit.dirty p
      dirtyPages := [0] } := by
    unfold noteWrite
    rw [if_neg (by decide), if_neg (by decide), show RAM_BASE + BitVec.ofNat 64 (1 - 1) = RAM_BASE from rfl, hpage]
    change (if (m.bus.jit.marked 0 && !m.bus.jit.dirty 0) = true then _ else _) = _
    rw [h.marked, h.clean, if_pos (by rfl)]
    change { m.bus.jit with
      writeGenerations := fun p => if p = 0 then m.bus.jit.writeGenerations p + 1 else m.bus.jit.writeGenerations p
      dirty := fun p => if p = 0 then true else m.bus.jit.dirty p
      dirtyPages := m.bus.jit.dirtyPages ++ [0] } = _
    rw [h.list]
    rfl
  have hwrite : (m.bus.dma.guestWrite RAM_BASE [1]).2 = { m.bus.dma with
      ram := { m.bus.dma.ram with mem := fun i => if 0 ≤ i ∧ i < 0 + 1 then [(1 : U8)].getD (i - 0) 0 else m.bus.ram.mem i }
      jit := m.bus.jit.noteWrite RAM_BASE 1 } := by
    unfold guestWrite
    rw [show ([1] : List U8).length = 1 from rfl, hoff]
    rfl
  have hbus : (apply (apply m (dma RAM_BASE [1])) drain).bus = { m.bus with
      ram := { m.bus.ram with mem := fun i => if 0 ≤ i ∧ i < 0 + 1 then [(1 : U8)].getD (i - 0) 0 else m.bus.ram.mem i }
      jit := (m.bus.jit.noteWrite RAM_BASE 1).takeDirty.2 } := by
    change { m.bus.setDma (m.bus.dma.guestWrite RAM_BASE [1]).2 with
      jit := (m.bus.setDma (m.bus.dma.guestWrite RAM_BASE [1]).2).jit.takeDirty.2 } = _
    rw [hwrite]
    rfl
  rw [hnote] at hbus
  refine ⟨?_, ?_, ?_, ?_, ?_, ?_, ?_⟩ <;> rw [hbus]
  · exact h.len
  · exact h.pageCount
  · exact h.marked
  · rfl
  · change m.bus.jit.writeGenerations 0 + 1 = _
    rw [h.generation, BitVec.ofNat_add]
    rfl
  · rfl
  · rfl

theorem rewritten_rewrites {m : Machine VirtBus} (h : Rewritten 0 m) (n : ℕ) : Rewritten n (run (rewrites n) m) := by
  induction n with
  | zero => exact h
  | succ n ih =>
    unfold rewrites
    rw [List.replicate_succ', List.flatten_append, run_append]
    exact ih.round

/-- After as many drains as there are generations the page has the generation it had, and other bytes. -/
theorem page_changes_with_equal_generation :
    let m := apply (VirtMachine.new onePage [] false 0 0 0).hart (mark RAM_BASE)
    let m' := run (rewrites (2 ^ 64)) m
    m.bus.jit.pageMarked 0 = true ∧ m.bus.jit.isDirty 0 = false ∧ (∀ e ∈ rewrites (2 ^ 64), e ≠ .unmark 0) ∧
      m'.bus.jit.pageMarked 0 = true ∧ m'.bus.jit.isDirty 0 = false ∧
      m'.bus.jit.pageGeneration 0 = m.bus.jit.pageGeneration 0 ∧ ¬ SameBytes m m' 0 := by
  intro m m'
  have h : Rewritten 0 m := ⟨rfl, by decide, by decide, by decide, rfl, rfl, by decide⟩
  have h' : Rewritten (2 ^ 64) m' := rewritten_rewrites h (2 ^ 64)
  have hm : m.bus.jit.pageMarked 0 = true := by decide
  refine ⟨hm, by decide, fun e he => ?_, ?_, ?_, ?_, fun hs => ?_⟩
  · unfold rewrites at he
    obtain ⟨l, hl, hel⟩ := List.mem_flatten.1 he
    obtain rfl := List.eq_of_mem_replicate hl
    rcases List.mem_pair.1 hel with rfl | rfl <;> exact fun hc => nomatch hc
  · unfold pageMarked
    rw [h'.pageCount, h'.marked]
    rfl
  · unfold isDirty
    rw [h'.clean, Bool.and_false]
  · rw [pageGeneration_eq (by rw [h'.pageCount]; decide), pageGeneration_eq (by rw [h.pageCount]; decide), h'.generation, h.generation]
    rfl
  · have hbyte := hs 0 rfl
    rw [h'.byte, h.byte, if_pos rfl, if_neg (by decide)] at hbyte
    cases hbyte

end CodeEvent
end Lish
