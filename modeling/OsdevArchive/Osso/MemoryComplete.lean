import OsdevArchive.Osso.Memory

/-!
When a free page can be handed out. The search for data pages stops at the first page
table, and the cursor for page tables only moves down, so a free page is of no use above
a page table, and no page table can be had unless the page at the cursor is free.
-/

namespace OsdevArchive.Osso.Memory

open OsdevArchive.Lib.Runs

/-- Each allocator succeeds if a page is free. -/
def Complete (m : State) : Prop :=
  m.freePages ≠ 0 →
    (∃ i, (getpage m).1 = .page i) ∧ (∃ i, (getpagedirectory m).1 = .page i) ∧
      ∃ i, (getpagetable m).1 = .page i

def Call.Allocates : Call → Prop
  | .freepage _ => False
  | _ => True

/-- A free page that no allocator will hand out, unless more pages are freed. -/
def Stranded (s : System) (i : Nat) : Prop :=
  i < s.mem.numPages.toNat ∧ s.mem.pagelist i = .freepage ∧
    ∀ cs t, (∀ c ∈ cs, Call.Allocates c) → Run (Computes exec) s cs t → i ∉ t.live

/-- A page is not taken from the cursor, and no page is put or left above a page table,
unless no page is free afterwards. -/
def Keeps (s : System) : Call → Prop
  | .getpage | .getpagedirectory =>
    1 < s.mem.freePages → ∃ i < s.mem.ptPages.toNat, s.mem.pagelist i = .freepage
  | .getpagetable =>
    1 < s.mem.freePages → s.mem.pagelist (s.mem.ptPages.toNat - 1) = .freepage ∧
      ∀ i < s.mem.numPages.toNat, s.mem.ptPages.toNat < i → s.mem.pagelist i ≠ .freepage
  | .freepage pagina =>
    (∀ i < pagina, s.mem.pagelist i ≠ .ptabpage) ∧
      (pagina = s.mem.ptPages.toNat ∨ s.mem.ptPages.toNat < s.mem.numPages.toNat ∧
        s.mem.pagelist s.mem.ptPages.toNat = .freepage)

instance (s : System) (c : Call) : Decidable (Keeps s c) :=
  match c with
  | .getpage | .getpagedirectory =>
    inferInstanceAs (Decidable (_ → ∃ i < s.mem.ptPages.toNat, s.mem.pagelist i = .freepage))
  | .getpagetable =>
    inferInstanceAs (Decidable (_ → s.mem.pagelist (s.mem.ptPages.toNat - 1) = .freepage ∧
      ∀ i < s.mem.numPages.toNat, s.mem.ptPages.toNat < i → s.mem.pagelist i ≠ .freepage))
  | .freepage pagina =>
    inferInstanceAs (Decidable ((∀ i < pagina, s.mem.pagelist i ≠ .ptabpage) ∧ (_ ∨ _ ∧ _)))

/-- No free page lies above a page table, and the page at the cursor is free if any is. -/
structure Ready (s : System) : Prop extends Inv s where
  reachable : ∀ i < s.mem.numPages.toNat, s.mem.pagelist i = .freepage →
    ∀ j < i, s.mem.pagelist j ≠ .ptabpage
  cursor : s.mem.freePages ≠ 0 → s.mem.ptPages.toNat < s.mem.numPages.toNat ∧
    s.mem.pagelist s.mem.ptPages.toNat = .freepage
  running : s.mem.freePages ≠ 0 → s.halted = false

/-! ### What is free -/

theorem Inv.free_iff {s : System} (hinv : Inv s) :
    s.mem.freePages ≠ 0 ↔ ∃ i < s.mem.numPages.toNat, s.mem.pagelist i = .freepage := by
  have hcounted := hinv.counted
  constructor
  · intro hsome
    apply exists_free
    rw [← hcounted, Nat.pos_iff_ne_zero]
    exact fun hzero => hsome (BitVec.eq_of_toNat_eq hzero)
  · rintro ⟨i, hi, hfree⟩ hzero
    have hpos := freeEntries_pos hi hfree
    rw [← hcounted, hzero] at hpos
    exact absurd hpos (Nat.lt_irrefl 0)

/-- Two pages are free as long as one remains after a page is handed out. -/
theorem one_lt_of_sub_ne_zero {free : Dword} (hsome : free ≠ 0) (hrest : free - 1 ≠ 0) :
    1 < free := by
  have hzero : free.toNat ≠ 0 := fun h => hsome (BitVec.eq_of_toNat_eq h)
  have hone : free.toNat ≠ 1 := fun h => hrest (by rw [BitVec.eq_of_toNat_eq (y := 1) h]; rfl)
  rw [BitVec.lt_def]
  exact lt_of_le_of_ne (Nat.pos_of_ne_zero hzero) hone.symm

theorem FirstStop.free_of_reachable {m : State} {k i : Nat} (hfirst : FirstStop m k)
    (hfree : m.pagelist i = .freepage) (hbelow : ∀ j < i, m.pagelist j ≠ .ptabpage) :
    k ≤ i ∧ m.pagelist k = .freepage := by
  have hki : k ≤ i := State.Stops.firstStop (.inl hfree) hfirst
  refine ⟨hki, hfirst.stops.resolve_right fun hptab => ?_⟩
  rcases hki.eq_or_lt with rfl | hlt
  · rw [hfree] at hptab
    exact PageKind.noConfusion hptab
  · exact hbelow k hlt hptab

/-- While a page is free, the search of `mem_getpage` hands out the first free page. -/
theorem searches_of_free {s t : System} {kind : PageKind} (hsearch : Searches s kind t)
    {i : Nat} (hi : i < s.mem.numPages.toNat) (hfree : s.mem.pagelist i = .freepage)
    (hbelow : ∀ j < i, s.mem.pagelist j ≠ .ptabpage) :
    ∃ k seen, k ≤ i ∧ FirstStop s.mem k ∧ s.mem.pagelist k = .freepage ∧
      (∀ j, j ∈ seen ↔ j ≤ k) ∧ t = s.take seen k kind s.mem.ptPages := by
  rcases hsearch.cases with ⟨k, seen, hfirst, hseen, ⟨hk, rfl⟩ | ⟨hptab, rfl⟩⟩ |
    ⟨seen, hnone, -, -⟩
  · exact ⟨k, seen, (hfirst.free_of_reachable hfree hbelow).1, hfirst, hk, hseen, rfl⟩
  · rw [(hfirst.free_of_reachable hfree hbelow).2] at hptab
    exact PageKind.noConfusion hptab
  · exact absurd (.inl hfree) (hnone i (hi.trans s.mem.numPages.isLt))

/-! ### One call -/

theorem take_entry (s : System) (seen : List Nat) (k : Nat) (kind : PageKind) (ptPages : Dword)
    (i : Nat) : (s.take seen k kind ptPages).mem.pagelist i =
      if i = k then kind else s.mem.pagelist i :=
  Function.update_apply ..

theorem Ready.take {s : System} (hready : Ready s) {seen : List Nat} {k : Nat} {kind : PageKind}
    {ptPages : Dword} (hinv : Inv (s.take seen k kind ptPages)) (hused : kind ≠ .freepage)
    (hsome : s.mem.freePages ≠ 0)
    (hcursor : 1 < s.mem.freePages → ptPages.toNat < s.mem.numPages.toNat ∧
      ptPages.toNat ≠ k ∧ s.mem.pagelist ptPages.toNat = .freepage)
    (habove : kind = .ptabpage → 1 < s.mem.freePages →
      ∀ i < s.mem.numPages.toNat, k < i → s.mem.pagelist i ≠ .freepage) :
    Ready (s.take seen k kind ptPages) := by
  have hmore (hrest : (s.take seen k kind ptPages).mem.freePages ≠ 0) : 1 < s.mem.freePages :=
    one_lt_of_sub_ne_zero hsome hrest
  refine ⟨hinv, ?_, ?_, fun _ => hready.running hsome⟩
  · intro i hi hfree j hj hptab
    have hrest := hmore (hinv.free_iff.mpr ⟨i, hi, hfree⟩)
    rw [take_entry] at hfree hptab
    by_cases hik : i = k
    · rw [if_pos hik] at hfree
      exact hused hfree
    · rw [if_neg hik] at hfree
      by_cases hjk : j = k
      · rw [if_pos hjk] at hptab
        exact habove hptab hrest i hi (hjk ▸ hj) hfree
      · rw [if_neg hjk] at hptab
        exact hready.reachable i hi hfree j hj hptab
  · intro hrest
    obtain ⟨hlt, hother, hfree⟩ := hcursor (hmore hrest)
    refine ⟨hlt, ?_⟩
    exact (take_entry ..).trans ((if_neg hother).trans hfree)

theorem Ready.pass {s : System} (hready : Ready s) {seen : List Nat} {halted : Bool}
    (hinv : Inv (s.pass seen halted)) (hhalted : s.mem.freePages ≠ 0 → halted = false) :
    Ready (s.pass seen halted) :=
  ⟨hinv, hready.reachable, hready.cursor, hhalted⟩

theorem Ready.release {s : System} (hready : Ready s) {pagina : Nat}
    (hlive : pagina ∈ s.live) (hrunning : s.halted = false)
    (hinv : Inv (s.release pagina)) (hkeeps : Keeps s (.freepage pagina)) :
    Ready (s.release pagina) := by
  have hentry (i : Nat) : (s.release pagina).mem.pagelist i =
      if i = pagina then .freepage else s.mem.pagelist i := Function.update_apply ..
  refine ⟨hinv, ?_, ?_, fun _ => hrunning⟩
  · intro i hi hfree j hj hptab
    rw [hentry] at hfree hptab
    by_cases hjp : j = pagina
    · rw [if_pos hjp] at hptab
      exact PageKind.noConfusion hptab
    · rw [if_neg hjp] at hptab
      by_cases hip : i = pagina
      · exact hkeeps.1 j (hip ▸ hj) hptab
      · rw [if_neg hip] at hfree
        exact hready.reachable i hi hfree j hj hptab
  · intro _
    change s.mem.ptPages.toNat < s.mem.numPages.toNat ∧
      (s.release pagina).mem.pagelist s.mem.ptPages.toNat = .freepage
    rw [hentry]
    rcases hkeeps.2 with hcursor | ⟨hlt, hfree⟩
    · rw [if_pos hcursor.symm, ← hcursor]
      exact ⟨hready.returned pagina hlive, rfl⟩
    · rw [hfree, ite_self]
      exact ⟨hlt, rfl⟩

/-- If another page is free than the one at the cursor, and none above it, then the
cursor is not at the first page. -/
theorem another_below {s : System} {seen : List Nat} {k : Nat} {ptPages : Dword}
    (hinv : Inv (s.take seen k .ptabpage ptPages)) (hmore : 1 < s.mem.freePages)
    (habove : ∀ i < s.mem.numPages.toNat, k < i → s.mem.pagelist i ≠ .freepage) : 0 < k := by
  have hrest : (s.take seen k .ptabpage ptPages).mem.freePages ≠ 0 := by
    intro hzero
    have hword : (s.mem.freePages - 1).toNat = s.mem.freePages.toNat - 1 :=
      BitVec.toNat_sub_of_le (BitVec.le_of_lt hmore)
    have hleft : (s.mem.freePages - 1).toNat = 0 := congrArg BitVec.toNat hzero
    have hlt : 1 < s.mem.freePages.toNat := BitVec.lt_def.mp hmore
    omega
  obtain ⟨i, hi, hfree⟩ := hinv.free_iff.mp hrest
  rw [take_entry] at hfree
  by_cases hik : i = k
  · rw [if_pos hik] at hfree
    exact PageKind.noConfusion hfree
  · rw [if_neg hik] at hfree
    have hle : ¬ k < i := fun hlt => habove i hi hlt hfree
    omega

theorem exec_running {s t : System} {c : Call} (h : exec s c = some t) : s.halted = false := by
  unfold exec at h
  split at h
  · cases h
  · next hrunning => exact Bool.eq_false_of_not_eq_true hrunning

theorem Ready.exec {s t : System} {c : Call} (hready : Ready s) (hok : Allowed s c)
    (hkeeps : Keeps s c) (h : exec s c = some t) : Ready t := by
  have hinv : Inv t := hready.toInv.exec hok h
  rcases exec_cases h with ⟨kind, hc, hsearch⟩ | ⟨rfl, hfree, rfl⟩ | ⟨rfl, hused, rfl⟩ |
    ⟨pagina, hlive, rfl, rfl⟩
  · by_cases hsome : s.mem.freePages ≠ 0
    · obtain ⟨i, hi, hfree⟩ := hready.free_iff.mp hsome
      obtain ⟨k, seen, -, hfirst, -, -, rfl⟩ :=
        searches_of_free hsearch hi hfree (hready.reachable i hi hfree)
      obtain ⟨hlt, hcursor⟩ := hready.cursor hsome
      refine hready.take hinv hsearch.used hsome (fun hmore => ⟨hlt, ?_, hcursor⟩)
        fun htable => absurd htable hsearch.notTable
      obtain ⟨j, hj, hbelow⟩ : ∃ j < s.mem.ptPages.toNat, s.mem.pagelist j = .freepage := by
        rcases hc with rfl | rfl
        · exact hkeeps hmore
        · exact hkeeps hmore
      have hkj : k ≤ j := State.Stops.firstStop (.inl hbelow) hfirst
      exact (hkj.trans_lt hj).ne'
    · have hnone : ∀ i < s.mem.numPages.toNat, s.mem.pagelist i ≠ .freepage :=
        fun i hi hfree => hsome (hready.free_iff.mpr ⟨i, hi, hfree⟩)
      rcases hsearch.cases with ⟨k, seen, hfirst, hseen, ⟨hfree, rfl⟩ | ⟨-, rfl⟩⟩ |
        ⟨seen, -, -, rfl⟩
      · have hk := hinv.returned k List.mem_cons_self
        exact absurd hfree (hnone k hk)
      · exact hready.pass hinv fun h => absurd h hsome
      · exact hready.pass hinv fun h => absurd h hsome
  · have hsome : s.mem.freePages ≠ 0 := hready.free_iff.mpr ⟨_, hok, hfree⟩
    refine hready.take hinv (by decide) hsome (fun hmore => ?_) fun _ hmore =>
      (hkeeps hmore).2
    obtain ⟨hprevious, habove⟩ := hkeeps hmore
    have hpos := another_below hinv hmore habove
    have hone : (1 : Dword) ≤ s.mem.ptPages := BitVec.le_def.mpr hpos
    have hword : (s.mem.ptPages - 1).toNat = s.mem.ptPages.toNat - 1 := BitVec.toNat_sub_of_le hone
    have hlt : s.mem.ptPages.toNat < s.mem.numPages.toNat := hok
    rw [hword]
    exact ⟨by omega, by omega, hprevious⟩
  · have hnone : ¬ s.mem.freePages ≠ 0 := fun hsome => hused (hready.cursor hsome).2
    exact hready.pass hinv fun hsome => absurd hsome hnone
  · exact hready.release hlive (exec_running h) hinv hkeeps

/-! ### Every free page can be handed out -/

theorem exec_getpage {s : System} (hrunning : s.halted = false) :
    exec s .getpage = some (s.after (getpage s.mem)) :=
  if_neg (Bool.eq_false_iff.mp hrunning)

/-- Calls of `getpage` alone hand out every free page below which there is no page table. -/
theorem Inv.handed_out {s : System} (hinv : Inv s) (hrunning : s.halted = false) {i : Nat}
    (hi : i < s.mem.numPages.toNat) (hfree : s.mem.pagelist i = .freepage)
    (hbelow : ∀ j < i, s.mem.pagelist j ≠ .ptabpage) :
    ∃ n t, Run (Computes Memory.exec) s (List.replicate n .getpage) t ∧ i ∈ t.live := by
  induction hcount : s.mem.freeEntries generalizing s with
  | zero => exact absurd (freeEntries_pos hi hfree) (by omega)
  | succ count ih =>
    have hsearch : Searches s .datapage (s.after (memGetpage .datapage s.mem)) :=
      searches_after s (by decide) (by decide)
    obtain ⟨k, seen, hki, -, hk, hseen, hnext⟩ := searches_of_free hsearch hi hfree hbelow
    have hstep : Computes Memory.exec s .getpage (s.take seen k .datapage s.mem.ptPages) :=
      (exec_getpage hrunning).trans (congrArg some hnext)
    by_cases hik : i = k
    · exact ⟨1, _, .single hstep, hik ▸ List.mem_cons_self⟩
    · have hin := hki.trans_lt hi
      have hnew : Inv (s.take seen k .datapage s.mem.ptPages) :=
        hinv.take _ hin hk (by decide) fun j hj => ((hseen j).mp hj).trans_lt hin
      have hrest : (s.take seen k .datapage s.mem.ptPages).mem.freeEntries = count := by
        have hset := freeEntries_set (s.mem.saw seen) k .datapage hin
        have hold : ((s.mem.saw seen).pagelist k == PageKind.freepage) = true :=
          beq_iff_eq.mpr hk
        rw [hold] at hset
        exact Nat.succ.inj (hset.trans hcount)
      obtain ⟨n, t, hrun, hlive⟩ := ih hnew hrunning hi
        ((take_entry ..).trans ((if_neg hik).trans hfree))
        (fun j hj hptab => by
          rw [take_entry] at hptab
          by_cases hjk : j = k
          · rw [if_pos hjk] at hptab
            exact PageKind.noConfusion hptab
          · rw [if_neg hjk] at hptab
            exact hbelow j hj hptab) hrest
      exact ⟨n + 1, t, .cons hstep hrun, hlive⟩

theorem Ready.not_stranded {s : System} (hready : Ready s) (i : Nat) : ¬ Stranded s i := by
  rintro ⟨hi, hfree, hnever⟩
  have hsome := hready.free_iff.mpr ⟨i, hi, hfree⟩
  obtain ⟨n, t, hrun, hlive⟩ := hready.handed_out (hready.running hsome) hi hfree
    (hready.reachable i hi hfree)
  refine hnever _ t ?_ hrun hlive
  intro c hc
  rw [List.eq_of_mem_replicate hc]
  trivial

theorem Ready.getpage_succeeds {s : System} (hready : Ready s) (hsome : s.mem.freePages ≠ 0)
    (kind : PageKind) : ∃ i, (memGetpage kind s.mem).1 = .page i := by
  obtain ⟨i, hi, hfree⟩ := hready.free_iff.mp hsome
  rcases memGetpage_cases kind s.mem with
    ⟨k, seen, hfirst, -, ⟨-, hresult⟩ | ⟨hptab, -⟩⟩ | ⟨seen, hnone, -, -⟩
  · exact ⟨k, congrArg Prod.fst hresult⟩
  · have hk := (hfirst.free_of_reachable hfree (hready.reachable i hi hfree)).2
    rw [hk] at hptab
    exact PageKind.noConfusion hptab
  · exact absurd (.inl hfree) (hnone i (hi.trans s.mem.numPages.isLt))

theorem Ready.complete {s : System} (hready : Ready s) : Complete s.mem := by
  intro hsome
  have htable : getpagetable s.mem = (.page s.mem.ptPages.toNat, _) :=
    if_pos (hready.cursor hsome).2
  exact ⟨hready.getpage_succeeds hsome .datapage, hready.getpage_succeeds hsome .pdirpage,
    s.mem.ptPages.toNat, congrArg Prod.fst htable⟩

theorem boot_ready (memorySize : Dword) (stray : Nat → PageKind) :
    Ready (boot memorySize stray) := by
  have hentry : ∀ i < (boot memorySize stray).mem.numPages.toNat,
      (boot memorySize stray).mem.pagelist i = .freepage := fun i hi => if_pos hi
  refine ⟨boot_inv memorySize stray, ?_, ?_, fun _ => rfl⟩
  · intro i hi _ j hj hptab
    rw [hentry j (hj.trans hi)] at hptab
    exact PageKind.noConfusion hptab
  · intro hsome
    have hnum : (boot memorySize stray).mem.numPages = (boot memorySize stray).mem.memPages :=
      BitVec.add_zero _
    have hfree : (boot memorySize stray).mem.freePages = (boot memorySize stray).mem.memPages :=
      hnum
    have hpages : (boot memorySize stray).mem.ptPages =
      (boot memorySize stray).mem.memPages - 1 := rfl
    have hpos : (boot memorySize stray).mem.memPages.toNat ≠ 0 := by
      rw [hfree] at hsome
      exact fun hzero => hsome (BitVec.eq_of_toNat_eq hzero)
    have hone : (1 : Dword) ≤ (boot memorySize stray).mem.memPages :=
      BitVec.le_def.mpr (Nat.pos_of_ne_zero hpos)
    have hlt : (boot memorySize stray).mem.ptPages.toNat <
        (boot memorySize stray).mem.numPages.toNat := by
      rw [hpages, hnum, BitVec.toNat_sub_of_le hone]
      exact Nat.sub_lt (Nat.pos_of_ne_zero hpos) (by decide)
    exact ⟨hlt, hentry _ hlt⟩

theorem allocators_complete {memorySize : Dword} {stray : Nat → PageKind} {cs : List Call}
    {t : System}
    (h : Run (Guarded (fun s c => Allowed s c ∧ Keeps s c) (Computes exec))
      (boot memorySize stray) cs t) :
    Complete t.mem ∧ ∀ i, ¬ Stranded t i := by
  have hready : Ready t := h.guarded_invariant
    (fun _ _ _ hs hok hstep => hs.exec hok.1 hok.2 hstep) (boot_ready memorySize stray)
  exact ⟨hready.complete, hready.not_stranded⟩

theorem allocators_complete_reuse : reused.live = [0, 2] ∧ Complete reused.mem := by
  have hrun : Run (Guarded (fun s c => Allowed s c ∧ Keeps s c) (Computes exec)) threePages
      reuse reused := Run.of_foldlM_checked rfl
  exact ⟨by decide +kernel, (allocators_complete hrun).1⟩

/-- Two page tables are taken and the upper one is freed: it lies above the other. -/
def tables : List Call := [.getpagetable, .getpagetable, .freepage 2, .getpage]

def stuck : System := (tables.foldlM exec threePages).getD threePages

theorem page_stranded :
    Run (Computes exec) threePages tables stuck ∧ stuck.mem.freePages = 1 ∧
      (getpage stuck.mem).1 = .panic ∧ (getpagedirectory stuck.mem).1 = .panic ∧
        (getpagetable stuck.mem).1 = .null ∧ ¬ Complete stuck.mem := by
  have hfree : stuck.mem.freePages = 1 := by decide +kernel
  have hdata : (getpage stuck.mem).1 = .panic := by decide +kernel
  refine ⟨Run.of_foldlM rfl, hfree, hdata, by decide +kernel, by decide +kernel, ?_⟩
  intro hcomplete
  obtain ⟨⟨i, hi⟩, -⟩ := hcomplete (by rw [hfree]; decide)
  rw [hdata] at hi
  exact Outcome.noConfusion hi

end OsdevArchive.Osso.Memory
