import Mathlib.Data.Fintype.Card
import OsdevArchive.Lib.CircList

/-!
The circular queues of `kernel/queue.h`. A queue is a pointer to its first
entry, `none` for `NULL`; the entries are linked in memory. The addresses are
any finite type, which bounds the walk of `count_queue`: `none` stands for a
walk that does not come back to the first entry.

Every operation is specified over the list of entries (`IsQueue`).
-/

namespace OsdevArchive.Minirighi.Queue

open OsdevArchive.Lib.Circular

/-- `queue_t`. -/
structure QueueNode (P V : Type*) where
  value : V
  next : P
  prev : P

/-- The entries in memory. -/
abbrev Memory (P V : Type*) := P → QueueNode P V

section

variable {P V : Type*} [DecidableEq P]

/-- `p->next = q`. -/
def Memory.setNext (m : Memory P V) (p q : P) : Memory P V :=
  Function.update m p { m p with next := q }

/-- `p->prev = q`. -/
def Memory.setPrev (m : Memory P V) (p q : P) : Memory P V :=
  Function.update m p { m p with prev := q }

/-- Unlink an entry from its neighbours. -/
def Memory.unlink (m : Memory P V) (entry : P) : Memory P V :=
  let m := m.setPrev (m entry).next (m entry).prev
  m.setNext (m entry).prev (m entry).next

/-- The head of a queue after `entry` is unlinked from it. -/
def Memory.newHead (m : Memory P V) (head entry : P) : Option P :=
  if entry = head then
    if entry = (m head).next then none else some (m head).next
  else some head

/-- Link an entry in front of the head, which is the end of the queue. -/
def Memory.linkLast (m : Memory P V) (q : Option P) (entry : P) : Memory P V × Option P :=
  match q with
  | none => ((m.setPrev entry entry).setNext entry entry, some entry)
  | some head =>
      let m := m.setPrev entry (m head).prev
      let m := m.setNext entry head
      let m := m.setNext (m head).prev entry
      (m.setPrev head entry, some head)

/-- `queue_move_entry(to, from, entry)`: the memory, `to` and `from`. -/
def queueMoveEntry (m : Memory P V) (dest source : Option P) (entry : P) :
    Memory P V × Option P × Option P :=
  match source with
  | none => (m, dest, source)
  | some head =>
      let m := m.unlink entry
      let source := m.newHead head entry
      let (m, dest) := m.linkLast dest entry
      (m, dest, source)

/-- `add_queue(q, v)`. The entry is the block that `kmalloc` returned, if any. -/
def addQueue (m : Memory P V) (q : Option P) (v : V) (block : Option P) :
    Option (Memory P V × Option P) :=
  block.map fun p => Memory.linkLast (Function.update m p { m p with value := v }) q p

/-- The loop of `count_queue`. -/
def countLoop (m : Memory P V) (head : P) : Nat → P → Nat → Option Nat
  | 0, _, _ => none
  | fuel + 1, tmp, count =>
      if tmp ≠ head ∨ count = 0 then countLoop m head fuel (m tmp).next (count + 1)
      else some count

/-- `count_queue`. -/
def countQueue [Fintype P] (m : Memory P V) (q : Option P) : Option Nat :=
  match q with
  | none => some 0
  | some head => countLoop m head (Fintype.card P + 1) head 0

variable {σ : Type*}

/-- The loop of `queue_for_each_safe`: `n` was read from `pos` before the body
ran on `pos`. -/
def forEachSafe (mem : σ → Memory P V) (body : σ → P → σ) : Nat → P → P → σ → σ
  | 0, _, _, s => s
  | c + 1, pos, n, s =>
      let s := body s pos
      forEachSafe mem body c n (mem s n).next s

/-- `queue_for_each_safe( pos, n, c, head ) body`. -/
def queueForEachSafe [Fintype P] (mem : σ → Memory P V) (body : σ → P → σ)
    (head : Option P) (s : σ) : Option σ :=
  match head with
  | none => some s
  | some pos =>
      (countQueue (mem s) head).map fun c =>
        forEachSafe mem body c pos (mem s pos).next s

/-- The search of `rem_queue` for the first entry with the value `v`. -/
def findLoop [DecidableEq V] (m : Memory P V) (v : V) : Nat → P → P → Option P
  | 0, _, _ => none
  | c + 1, pos, n => if (m pos).value = v then some pos else findLoop m v c n (m n).next

/-- `rem_queue(q, v)`: the memory, the queue, and the entry that `kfree` gets. -/
def remQueue [Fintype P] [DecidableEq V] (m : Memory P V) (q : Option P) (v : V) :
    Option (Memory P V × Option P × Option P) :=
  match q with
  | none => some (m, q, none)
  | some head =>
      (countQueue m q).map fun c =>
        match findLoop m v c head (m head).next with
        | none => (m, q, none)
        | some entry =>
            let m := m.unlink entry
            (m, m.newHead head entry, some entry)

end

/-! ## Queues as lists -/

/-- `q` is the queue of the entries `es`, in this order. -/
structure IsQueue {P V : Type*} (m : Memory P V) (q : Option P) (es : List P) : Prop where
  head : q = es.head?
  circle : CircList (fun p => (m p).next) (fun p => (m p).prev) es

variable {P V : Type*} {m m' : Memory P V} {q r : Option P} {a b e p : P} {v : V}
  {es fs pre post : List P}

theorem isQueue_nil : IsQueue m none [] := ⟨rfl, circList_nil⟩

theorem IsQueue.congr (h : IsQueue m q es) (hsame : ∀ p ∈ es, m' p = m p) : IsQueue m' q es :=
  ⟨h.head, h.circle.congr (fun p hp => by rw [hsame p hp]) fun p hp => by rw [hsame p hp]⟩

variable [DecidableEq P]

@[simp] theorem setNext_next : (m.setNext a b p).next = if p = a then b else (m p).next := by
  by_cases hp : p = a <;> simp [Memory.setNext, hp]

@[simp] theorem setNext_prev : (m.setNext a b p).prev = (m p).prev := by
  by_cases hp : p = a <;> simp [Memory.setNext, hp]

@[simp] theorem setNext_value : (m.setNext a b p).value = (m p).value := by
  by_cases hp : p = a <;> simp [Memory.setNext, hp]

@[simp] theorem setPrev_next : (m.setPrev a b p).next = (m p).next := by
  by_cases hp : p = a <;> simp [Memory.setPrev, hp]

@[simp] theorem setPrev_prev : (m.setPrev a b p).prev = if p = a then b else (m p).prev := by
  by_cases hp : p = a <;> simp [Memory.setPrev, hp]

@[simp] theorem setPrev_value : (m.setPrev a b p).value = (m p).value := by
  by_cases hp : p = a <;> simp [Memory.setPrev, hp]

theorem setNext_of_ne (hp : p ≠ a) : m.setNext a b p = m p := Function.update_of_ne hp _ _

theorem setPrev_of_ne (hp : p ≠ a) : m.setPrev a b p = m p := Function.update_of_ne hp _ _

theorem unlink_next : (m.unlink e p).next = if p = (m e).prev then (m e).next else (m p).next := by
  simp [Memory.unlink]

theorem unlink_prev : (m.unlink e p).prev = if p = (m e).next then (m e).prev else (m p).prev := by
  simp [Memory.unlink]

@[simp] theorem unlink_value : (m.unlink e p).value = (m p).value := by
  simp [Memory.unlink]

@[simp] theorem linkLast_value : ((m.linkLast q e).1 p).value = (m p).value := by
  cases q <;> simp [Memory.linkLast]

/-- Unlinking writes to the neighbours only. -/
theorem IsQueue.unlink_frame (h : IsQueue m q es) (he : e ∈ es) (hp : p ∉ es) :
    m.unlink e p = m p := by
  have hnext : (m e).next ∈ es := h.circle.next_mem he
  have hprev : (m e).prev ∈ es := h.circle.prev_mem he
  have hne : p ≠ (m e).next := fun heq => hp (heq ▸ hnext)
  have hne' : p ≠ (m e).prev := fun heq => hp (heq ▸ hprev)
  unfold Memory.unlink
  rw [setNext_of_ne (by simpa using hne'), setPrev_of_ne hne]

/-- Unlinking an entry takes it out of its queue. -/
theorem IsQueue.unlink (h : IsQueue m q (pre ++ e :: post)) :
    ∃ head, q = some head ∧
      IsQueue (m.unlink e) ((m.unlink e).newHead head e) (pre ++ post) := by
  have hrot : CircList (fun p => (m p).next) (fun p => (m p).prev) (e :: (post ++ pre)) :=
    CircList.rotate h.circle
  have hcircle : CircList (fun p => (m.unlink e p).next) (fun p => (m.unlink e p).prev)
      (pre ++ post) := by
    refine CircList.rotate (hrot.unlink.congr (fun a _ => ?_) fun a _ => ?_)
    · simp only [unlink_next, Function.update_apply]
    · simp only [unlink_prev, Function.update_apply]
  cases pre with
  | cons a pre =>
      refine ⟨a, h.head, ?_, hcircle⟩
      have hne : e ≠ a := by
        rintro rfl
        simpa using h.circle.nodup
      simp [Memory.newHead, hne]
  | nil =>
      refine ⟨e, h.head, ?_, hcircle⟩
      cases post with
      | nil =>
          have hself : (m e).next = e := hrot.next_singleton
          simp [Memory.newHead, unlink_next, hself]
      | cons b post =>
          have hnext : (m e).next = b := hrot.next_cons_cons
          have hnodup := hrot.nodup
          have hne : e ≠ b := by
            rintro rfl
            simp at hnodup
          have hprev : e ≠ (m e).prev := by
            intro heq
            obtain ⟨init, last, hlast⟩ : ∃ init last, b :: post = init ++ [last] :=
              ⟨_, _, (List.dropLast_append_getLast (List.cons_ne_nil b post)).symm⟩
            rw [List.append_nil, hlast, ← List.cons_append] at hrot
            have hprevLast : (m e).prev = last := hrot.prev_cons_concat
            rw [← heq] at hprevLast
            simpa [hprevLast] using hrot.nodup
          simp [Memory.newHead, unlink_next, hprev, hnext, hne]

/-- Linking writes to the new entry, the head and the last entry only. -/
theorem IsQueue.linkLast_frame (h : IsQueue m q es) (he : e ∉ es) (hp : p ∉ es)
    (hpe : p ≠ e) :
    (m.linkLast q e).1 p = m p := by
  cases es with
  | nil =>
      obtain rfl := h.head
      simp only [Memory.linkLast, List.head?_nil]
      rw [setNext_of_ne hpe, setPrev_of_ne hpe]
  | cons a es =>
      obtain rfl := h.head
      have hprev : (m a).prev ∈ a :: es := h.circle.prev_mem (by simp)
      have hpa : p ≠ a := fun heq => hp (by simp [heq])
      have hae : a ≠ e := fun heq => he (by simp [heq])
      have hlast : p ≠ (m a).prev := fun heq => hp (heq ▸ hprev)
      simp only [Memory.linkLast, List.head?_cons, setNext_prev, setPrev_prev, if_neg hae]
      rw [setPrev_of_ne hpa, setNext_of_ne hlast, setNext_of_ne hpe, setPrev_of_ne hpe]

theorem IsQueue.linkLast (h : IsQueue m q es) (he : e ∉ es) :
    IsQueue (m.linkLast q e).1 (m.linkLast q e).2 (es ++ [e]) := by
  cases es with
  | nil =>
      obtain rfl := h.head
      exact ⟨rfl, circList_singleton (by simp [Memory.linkLast]) (by simp [Memory.linkLast])⟩
  | cons a es =>
      obtain rfl := h.head
      have hprev : (m a).prev ∈ a :: es := h.circle.prev_mem (by simp)
      have hae : a ≠ e := fun heq => he (by simp [heq])
      have hlast : (m a).prev ≠ e := fun heq => he (heq ▸ hprev)
      refine ⟨rfl, h.circle.insert he ?_ ?_ ?_ ?_ ?_ ?_⟩
      · intro c hc hne
        have hce : c ≠ e := fun heq => he (heq ▸ hc)
        simp [Memory.linkLast, hae, hce, hne]
      · intro c hc hne
        have hce : c ≠ e := fun heq => he (heq ▸ hc)
        simp [Memory.linkLast, hce, hne]
      · simp [Memory.linkLast, hae]
      · simp [Memory.linkLast, hae.symm]
      · simp [Memory.linkLast, hae, hlast.symm]
      · simp [Memory.linkLast]

/-- `queue_move_entry` takes an entry out of one queue and appends it to another. -/
theorem queueMoveEntry_spec (hsource : IsQueue m q es) (hdest : IsQueue m r fs) (he : e ∈ es)
    (hdisjoint : es.Disjoint fs) :
    IsQueue (queueMoveEntry m r q e).1 (queueMoveEntry m r q e).2.2 (es.erase e) ∧
      IsQueue (queueMoveEntry m r q e).1 (queueMoveEntry m r q e).2.1 (fs ++ [e]) ∧
      (∀ p, p ∉ es → p ∉ fs → (queueMoveEntry m r q e).1 p = m p) ∧
      ∀ p, ((queueMoveEntry m r q e).1 p).value = (m p).value := by
  obtain ⟨pre, post, rfl⟩ := List.append_of_mem he
  have hnodup := hsource.circle.nodup
  have hpre : e ∉ pre := fun h => List.disjoint_of_nodup_append hnodup h (by simp)
  have herase : (pre ++ e :: post).erase e = pre ++ post := by
    rw [List.erase_append_right _ hpre, List.erase_cons_head]
  have hefs : e ∉ fs := fun h => hdisjoint he h
  have hnotin : e ∉ pre ++ post := by
    have hmem := hnodup.not_mem_erase (a := e)
    rwa [herase] at hmem
  obtain ⟨head, rfl, hleft⟩ := hsource.unlink
  have hdest' : IsQueue (m.unlink e) r fs :=
    hdest.congr fun p hp => hsource.unlink_frame he fun h => hdisjoint h hp
  have hresult : queueMoveEntry m r (some head) e =
      (((m.unlink e).linkLast r e).1, ((m.unlink e).linkLast r e).2,
        (m.unlink e).newHead head e) := rfl
  rw [hresult, herase]
  refine ⟨hleft.congr fun p hp => hdest'.linkLast_frame hefs ?_ ?_, hdest'.linkLast hefs, ?_, ?_⟩
  · intro h
    refine hdisjoint ?_ h
    simp only [List.mem_append, List.mem_cons] at hp ⊢
    tauto
  · rintro rfl
    exact hnotin hp
  · intro p hp hpfs
    have hpe : p ≠ e := fun heq => hp (heq ▸ he)
    rw [hdest'.linkLast_frame hefs hpfs hpe, hsource.unlink_frame he hp]
  · intro p
    rw [linkLast_value, unlink_value]

theorem countLoop_spec {tmp : P} {rest : List P} (h : IsQueue m q (a :: es))
    (hsplit : a :: es = pre ++ tmp :: rest) {fuel : Nat} (hfuel : rest.length + 1 < fuel) :
    countLoop m a fuel tmp pre.length = some (a :: es).length := by
  induction rest generalizing pre tmp fuel with
  | nil =>
      obtain ⟨fuel, rfl⟩ : ∃ k, fuel = k + 2 := ⟨fuel - 2, by simp at hfuel; omega⟩
      have hnext : (m tmp).next = a := h.circle.next_last hsplit
      have hgo : tmp ≠ a ∨ pre.length = 0 := by
        cases pre with
        | nil => exact Or.inr rfl
        | cons b pre =>
            left
            rintro rfl
            have hnodup := h.circle.nodup
            obtain ⟨rfl, -⟩ : tmp = b ∧ es = pre ++ [tmp] := by simpa using hsplit
            rw [hsplit] at hnodup
            simp at hnodup
      have hlength : (a :: es).length = pre.length + 1 := by rw [hsplit]; simp
      rw [countLoop, if_pos hgo, hnext]
      simp [countLoop, hlength]
  | cons b rest ih =>
      obtain ⟨fuel, rfl⟩ : ∃ k, fuel = k + 1 := ⟨fuel - 1, by simp at hfuel; omega⟩
      have hcircle := h.circle
      rw [hsplit] at hcircle
      have hnext : (m tmp).next = b := hcircle.next_middle
      have hgo : tmp ≠ a ∨ pre.length = 0 := by
        cases pre with
        | nil => exact Or.inr rfl
        | cons c pre =>
            left
            rintro rfl
            obtain ⟨rfl, -⟩ : tmp = c ∧ es = pre ++ tmp :: b :: rest := by simpa using hsplit
            simpa using hcircle.nodup
      have hrec : countLoop m a fuel b (pre ++ [tmp]).length = some (a :: es).length :=
        ih (by simpa using hsplit) (by simpa using hfuel)
      rw [countLoop, if_pos hgo, hnext]
      simpa using hrec

/-- `count_queue` ends and counts the entries. -/
theorem countQueue_spec [Fintype P] (h : IsQueue m q es) : countQueue m q = some es.length := by
  cases es with
  | nil =>
      obtain rfl := h.head
      rfl
  | cons a es =>
      obtain rfl := h.head
      have hcard : (a :: es).length ≤ Fintype.card P := h.circle.nodup.length_le_card
      have hsplit : a :: es = [] ++ a :: es := rfl
      exact countLoop_spec h hsplit (Nat.lt_succ_of_le hcard)

omit [DecidableEq P] in
theorem findLoop_spec [DecidableEq V] {n : P} {kept rest : List P}
    (hcircle : CircList (fun p => (m p).next) (fun p => (m p).prev) (kept ++ p :: rest))
    (hn : ∀ b ∈ rest.head?, n = b) :
    findLoop m v (rest.length + 1) p n = (p :: rest).find? fun a => (m a).value = v := by
  induction rest generalizing kept p n with
  | nil =>
      by_cases hp : (m p).value = v
      · simp [findLoop, hp]
      · simp [findLoop, hp]
  | cons b rest ih =>
      obtain rfl : n = b := hn b rfl
      have hshift : CircList (fun p => (m p).next) (fun p => (m p).prev)
          ((kept ++ [p]) ++ n :: rest) := by
        simpa using hcircle
      have hnext : ∀ c ∈ rest.head?, (m n).next = c := by
        intro c hc
        cases rest with
        | nil => simp at hc
        | cons d rest =>
            obtain rfl : d = c := by simpa using hc
            exact hshift.next_middle
      by_cases hp : (m p).value = v
      · simp [findLoop, hp]
      · rw [List.length_cons, findLoop, if_neg hp, ih hshift hnext]
        exact (List.find?_cons_of_neg (by simpa using hp)).symm

/-- `rem_queue` takes the first entry with the value out of the queue, if there is one. -/
theorem remQueue_spec [Fintype P] [DecidableEq V] (h : IsQueue m q es) (v : V) :
    ∃ m' q', remQueue m q v = some (m', q', es.find? fun p => (m p).value = v) ∧
      IsQueue m' q' (es.eraseP fun p => (m p).value = v) ∧ (∀ p, p ∉ es → m' p = m p) ∧
      ∀ p, (m' p).value = (m p).value := by
  cases hes : es with
  | nil =>
      obtain rfl : q = none := by rw [h.head, hes]; rfl
      exact ⟨m, none, rfl, by rwa [hes] at h, fun _ _ => rfl, fun _ => rfl⟩
  | cons a rest =>
      have hq : q = some a := by rw [h.head, hes]; rfl
      have hcount : countQueue m (some a) = some (rest.length + 1) := by
        rw [← hq, countQueue_spec h, hes, List.length_cons]
      have hcircle : CircList (fun p => (m p).next) (fun p => (m p).prev) ([] ++ a :: rest) :=
        hes ▸ h.circle
      have hfind : findLoop m v (rest.length + 1) a (m a).next =
          (a :: rest).find? fun p => (m p).value = v := by
        refine findLoop_spec hcircle fun b hb => ?_
        cases rest with
        | nil => simp at hb
        | cons d rest =>
            obtain rfl : d = b := by simpa using hb
            exact hcircle.next_cons_cons
      rw [← hes] at hfind ⊢
      cases hfound : es.find? fun p => (m p).value = v with
      | none =>
          rw [hfound] at hfind
          have hnone : ∀ p ∈ es, ¬decide ((m p).value = v) = true := List.find?_eq_none.mp hfound
          refine ⟨m, q, by simp [remQueue, hq, hcount, hfind], ?_, fun _ _ => rfl, fun _ => rfl⟩
          rwa [List.eraseP_of_forall_not hnone]
      | some e =>
          rw [hfound] at hfind
          obtain ⟨hvalue, pre, post, hsplit, hpre⟩ := List.find?_eq_some_iff_append.mp hfound
          have hmem : e ∈ es := by simp [hsplit]
          have herase : es.eraseP (fun p => (m p).value = v) = pre ++ post := by
            rw [hsplit, List.eraseP_append_right _ fun p hp => by simpa using hpre p hp]
            exact congrArg (pre ++ ·) (List.eraseP_cons_of_pos hvalue)
          obtain ⟨head, hhead, hleft⟩ := (hsplit ▸ h : IsQueue m q (pre ++ e :: post)).unlink
          obtain rfl : a = head := Option.some.inj (hq.symm.trans hhead)
          refine ⟨m.unlink e, (m.unlink e).newHead a e, by simp [remQueue, hq, hcount, hfind],
            herase ▸ hleft, fun p hp => h.unlink_frame hmem hp, fun p => unlink_value⟩

/-- `queue_for_each_safe` runs its body once on every entry that the queue had
at the start, in order, when the body takes no entry out but the current one.
`R` relates the state to an abstract one with the current list of entries. -/
theorem forEachSafe_spec {σ α : Type*} {mem : σ → Memory P V} {body : σ → P → σ}
    {entries : α → List P} {visit : α → P → α} {R : σ → α → Prop} {queue : σ → Option P}
    (hqueue : ∀ s a, R s a → IsQueue (mem s) (queue s) (entries a))
    (hbody : ∀ s a e, R s a → e ∈ entries a → R (body s e) (visit a e))
    (hvisit : ∀ a e, entries (visit a e) = entries a ∨
      entries (visit a e) = (entries a).erase e)
    {s : σ} {a : α} {kept rest : List P} {pos n : P} (hR : R s a)
    (hentries : entries a = kept ++ pos :: rest) (hn : ∀ b ∈ rest.head?, n = b) :
    R (forEachSafe mem body (rest.length + 1) pos n s) ((pos :: rest).foldl visit a) := by
  induction rest generalizing s a kept pos n with
  | nil => exact hbody s a pos hR (by simp [hentries])
  | cons b rest ih =>
      obtain rfl : n = b := hn b rfl
      have hR' := hbody s a pos hR (by simp [hentries])
      obtain ⟨kept', hentries'⟩ :
          ∃ kept', entries (visit a pos) = kept' ++ n :: rest := by
        rcases hvisit a pos with hsame | herase
        · exact ⟨kept ++ [pos], by simp [hsame, hentries]⟩
        · refine ⟨kept, ?_⟩
          have hnodup := (hqueue s a hR).circle.nodup
          rw [hentries] at hnodup
          have hpos : pos ∉ kept := fun h => List.disjoint_of_nodup_append hnodup h (by simp)
          rw [herase, hentries, List.erase_append_right _ hpos, List.erase_cons_head]
      refine ih hR' hentries' fun c hc => ?_
      cases rest with
      | nil => simp at hc
      | cons d rest =>
          obtain rfl : d = c := by simpa using hc
          have hcircle := (hqueue _ _ hR').circle
          rw [hentries'] at hcircle
          exact hcircle.next_middle

theorem queueForEachSafe_spec [Fintype P] {σ α : Type*} {mem : σ → Memory P V}
    (queue : σ → Option P) (entries : α → List P) (body : σ → P → σ) (visit : α → P → α)
    (R : σ → α → Prop) (hqueue : ∀ s a, R s a → IsQueue (mem s) (queue s) (entries a))
    (hbody : ∀ s a e, R s a → e ∈ entries a → R (body s e) (visit a e))
    (hvisit : ∀ a e, entries (visit a e) = entries a ∨
      entries (visit a e) = (entries a).erase e) {s : σ} {a : α} (hR : R s a) :
    ∃ s', queueForEachSafe mem body (queue s) s = some s' ∧
      R s' ((entries a).foldl visit a) := by
  have h := hqueue s a hR
  have hcount := countQueue_spec h
  cases hentries : entries a with
  | nil =>
      rw [hentries] at h
      exact ⟨s, by rw [h.head]; rfl, hR⟩
  | cons pos rest =>
      rw [hentries] at h hcount
      rw [h.head] at hcount ⊢
      refine ⟨_, by simp only [queueForEachSafe, List.head?_cons] at hcount ⊢; rw [hcount]; rfl, ?_⟩
      have hsplit : entries a = [] ++ pos :: rest := hentries
      refine forEachSafe_spec hqueue hbody hvisit hR hsplit fun b hb => ?_
      cases rest with
      | nil => simp at hb
      | cons d rest =>
          obtain rfl : d = b := by simpa using hb
          exact h.circle.next_cons_cons

end OsdevArchive.Minirighi.Queue
