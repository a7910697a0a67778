import OsdevArchive.Lib.Runs
import OsdevArchive.Minirighi.Queue

/-!
Any number of the queues of `kernel/queue.h` in one memory, against lists. The calls are those
that add, remove and move entries; the lists take the same calls and give the same results, in
every sequence of calls. `add_queue_head` is the one to look at: it puts its entry behind the head
of the queue, not in front of it.
-/

namespace OsdevArchive.Minirighi.Queue

open OsdevArchive.Lib.Circular OsdevArchive.Lib.Runs

/-- `ENOMEM`. -/
def eNoMem : Int := 12

section

variable {P V : Type*} [DecidableEq P]

/-- `queue_del_entry(q, entry)`: the memory, the queue and the result. -/
def queueDelEntry (m : Memory P V) (q : Option P) (entry : P) : Memory P V × Option P × Int :=
  match q with
  | none => (m, none, -1)
  | some head =>
      let m := m.unlink entry
      (m, m.newHead head entry, 0)

/-- Link an entry behind the head. -/
def Memory.linkBehind (m : Memory P V) (q : Option P) (entry : P) : Memory P V × Option P :=
  match q with
  | none => ((m.setPrev entry entry).setNext entry entry, some entry)
  | some head =>
      let m := m.setNext entry (m head).next
      let m := m.setPrev entry head
      let m := m.setPrev (m head).next entry
      (m.setNext head entry, some head)

/-- `add_queue_head(q, v)`. The entry is the block that `kmalloc` returned, if any. -/
def addQueueHead (m : Memory P V) (q : Option P) (v : V) (block : Option P) :
    Option (Memory P V × Option P) :=
  block.map fun p => Memory.linkBehind (Function.update m p { m p with value := v }) q p

end

/-! ### Many queues in one memory -/

/-- The queues that the kernel keeps. -/
structure Queues (Q P V : Type*) where
  mem : Memory P V
  head : Q → Option P

/-- The calls, with the block that `kmalloc` finds for a new entry. -/
inductive Call (Q P V : Type*) where
  | addQueue (q : Q) (v : V) (block : Option P)
  | addQueueHead (q : Q) (v : V) (block : Option P)
  | remQueue (q : Q) (v : V)
  | queueDelEntry (q : Q) (entry : P)
  | queueMoveEntry (dest source : Q) (entry : P)

section

variable {Q P V : Type*} [DecidableEq Q] [DecidableEq P]

/-- What an adding call makes of the queues. -/
def Queues.added (s : Queues Q P V) (q : Q) : Option (Memory P V × Option P) → Queues Q P V × Int
  | none => (s, -eNoMem)
  | some (m, head) => ({ mem := m, head := Function.update s.head q head }, 0)

/-- A call and its result; `none` when a walk along a queue does not end. -/
def Queues.perform [Fintype P] [DecidableEq V] (s : Queues Q P V) :
    Call Q P V → Option (Queues Q P V × Int)
  | .addQueue q v block => some (s.added q (addQueue s.mem (s.head q) v block))
  | .addQueueHead q v block => some (s.added q (addQueueHead s.mem (s.head q) v block))
  | .remQueue q v =>
      (remQueue s.mem (s.head q) v).map fun r =>
        ({ mem := r.1, head := Function.update s.head q r.2.1 }, if r.2.2.isSome then 0 else -1)
  | .queueDelEntry q entry =>
      let r := queueDelEntry s.mem (s.head q) entry
      some ({ mem := r.1, head := Function.update s.head q r.2.1 }, r.2.2)
  | .queueMoveEntry dest source entry =>
      let r := queueMoveEntry s.mem (s.head dest) (s.head source) entry
      some ({ mem := r.1
              head := Function.update (Function.update s.head source r.2.2) dest r.2.1 },
        if (s.head source).isSome then 0 else -1)

/-- A call of the queues, with its result. -/
def Performs [Fintype P] [DecidableEq V] (s : Queues Q P V) (c : Call Q P V × Int)
    (t : Queues Q P V) : Prop :=
  s.perform c.1 = some (t, c.2)

end

/-! ### The lists -/

/-- The entries of the queues, and what they hold. -/
structure Contents (Q P V : Type*) where
  entries : Q → List P
  value : P → V

/-- The second place of a list. -/
def behindHead {P : Type*} (p : P) : List P → List P
  | [] => [p]
  | a :: es => a :: p :: es

section

variable {Q P V : Type*} [DecidableEq Q] [DecidableEq P]

/-- A new entry comes to a queue. -/
def Contents.insert (l : Contents Q P V) (q : Q) (v : V) (p : P) (es : List P) :
    Contents Q P V :=
  ⟨Function.update l.entries q es, Function.update l.value p v⟩

/-- The calls on the lists. -/
def Contents.perform [DecidableEq V] (l : Contents Q P V) : Call Q P V → Contents Q P V × Int
  | .addQueue _ _ none => (l, -eNoMem)
  | .addQueue q v (some p) => (l.insert q v p (l.entries q ++ [p]), 0)
  | .addQueueHead _ _ none => (l, -eNoMem)
  | .addQueueHead q v (some p) => (l.insert q v p (behindHead p (l.entries q)), 0)
  | .remQueue q v =>
      let es := (l.entries q).eraseP fun p => l.value p = v
      (⟨Function.update l.entries q es, l.value⟩,
        if ∃ p ∈ l.entries q, l.value p = v then 0 else -1)
  | .queueDelEntry q entry =>
      let es := (l.entries q).erase entry
      (⟨Function.update l.entries q es, l.value⟩, if l.entries q = [] then -1 else 0)
  | .queueMoveEntry dest source entry =>
      if l.entries source = [] then (l, -1)
      else
        let left := Function.update l.entries source ((l.entries source).erase entry)
        (⟨Function.update left dest (l.entries dest ++ [entry]), l.value⟩, 0)

/-- What a caller has to see to: `kmalloc` returns a block that is not in use, the entry to be
deleted or moved is in its queue, and it moves to another one. -/
def Allowed (l : Contents Q P V) : Call Q P V → Prop
  | .addQueue _ _ block => ∀ p ∈ block, ∀ r, p ∉ l.entries r
  | .addQueueHead _ _ block => ∀ p ∈ block, ∀ r, p ∉ l.entries r
  | .remQueue _ _ => True
  | .queueDelEntry q entry => l.entries q ≠ [] → entry ∈ l.entries q
  | .queueMoveEntry dest source entry =>
      dest ≠ source ∧ (l.entries source ≠ [] → entry ∈ l.entries source)

/-- An allowed call of the lists, with its result. -/
def Answers [DecidableEq V] (l : Contents Q P V) (c : Call Q P V × Int) (l' : Contents Q P V) :
    Prop :=
  Allowed l c.1 ∧ l.perform c.1 = (l', c.2)

/-- From the head, `next` runs through the entries and back, and `prev` is its inverse. -/
structure Enumerates (m : Memory P V) (q : Option P) (es : List P) : Prop where
  head : q = es.head?
  next : ∀ a ∈ q, ∀ i (hi : i < es.length), (fun p => (m p).next)^[i] a = es[i]
  around : ∀ a ∈ q, (fun p => (m p).next)^[es.length] a = a
  inverse : ∀ p ∈ es, (m (m p).next).prev = p ∧ (m (m p).prev).next = p
  once : es.Nodup

/-- The queues hold the lists. -/
structure Refines (s : Queues Q P V) (l : Contents Q P V) : Prop where
  queue : ∀ q, IsQueue s.mem (s.head q) (l.entries q)
  disjoint : ∀ q r, q ≠ r → (l.entries q).Disjoint (l.entries r)
  value : ∀ q, ∀ p ∈ l.entries q, (s.mem p).value = l.value p

end

/-! ### One queue -/

section

variable {P V : Type*} {m : Memory P V} {q : Option P} {es : List P} {e p : P} {v : V}

theorem IsQueue.enumerates (h : IsQueue m q es) : Enumerates m q es := by
  constructor
  · exact h.head
  · intro a ha i hi
    obtain rfl := h.head
    obtain ⟨es, rfl⟩ := List.head?_eq_some_iff.mp ha
    exact h.circle.iterate_next hi
  · intro a ha
    obtain rfl := h.head
    obtain ⟨es, rfl⟩ := List.head?_eq_some_iff.mp ha
    exact h.circle.iterate_length
  · intro p hp
    exact ⟨h.circle.prev_next hp, h.circle.next_prev hp⟩
  · exact h.circle.nodup

theorem mem_behindHead {a : P} : a ∈ behindHead p es ↔ a = p ∨ a ∈ es := by
  cases es with
  | nil => simp [behindHead]
  | cons b es =>
      simp only [behindHead, List.mem_cons]
      tauto

variable [DecidableEq P]

/-- `queue_del_entry` takes an entry out of its queue. -/
theorem queueDelEntry_spec (h : IsQueue m q es) (he : e ∈ es) :
    IsQueue (queueDelEntry m q e).1 (queueDelEntry m q e).2.1 (es.erase e) ∧
      (queueDelEntry m q e).2.2 = 0 ∧ (∀ p, p ∉ es → (queueDelEntry m q e).1 p = m p) ∧
      ∀ p, ((queueDelEntry m q e).1 p).value = (m p).value := by
  obtain ⟨pre, post, -, hsplit, herase⟩ := List.exists_erase_eq he
  obtain ⟨head, hhead, hleft⟩ := (hsplit ▸ h : IsQueue m q (pre ++ e :: post)).unlink
  have hresult : queueDelEntry m q e = (m.unlink e, (m.unlink e).newHead head e, 0) := by
    rw [hhead]
    rfl
  rw [hresult, herase]
  exact ⟨hleft, rfl, fun p hp => h.unlink_frame he hp, fun p => unlink_value⟩

@[simp] theorem linkBehind_value : ((m.linkBehind q e).1 p).value = (m p).value := by
  cases q <;> simp [Memory.linkBehind]

/-- Linking behind the head writes to the new entry and to the first two only. -/
theorem IsQueue.linkBehind_frame (h : IsQueue m q es) (he : e ∉ es) (hp : p ∉ es) (hpe : p ≠ e) :
    (m.linkBehind q e).1 p = m p := by
  cases es with
  | nil =>
      obtain rfl := h.head
      simp only [Memory.linkBehind, List.head?_nil]
      rw [setNext_of_ne hpe, setPrev_of_ne hpe]
  | cons a es =>
      obtain rfl := h.head
      have hnext : (m a).next ∈ a :: es := h.circle.next_mem (by simp)
      have hpa : p ≠ a := fun heq => hp (by simp [heq])
      have hae : a ≠ e := fun heq => he (by simp [heq])
      have hsecond : p ≠ (m a).next := fun heq => hp (heq ▸ hnext)
      simp only [Memory.linkBehind, List.head?_cons, setPrev_next, setNext_next, if_neg hae]
      rw [setNext_of_ne hpa, setPrev_of_ne hsecond, setPrev_of_ne hpe, setNext_of_ne hpe]

/-- The circle is read from its second entry on, where the new entry is the last. -/
theorem IsQueue.linkBehind (h : IsQueue m q es) (he : e ∉ es) :
    IsQueue (m.linkBehind q e).1 (m.linkBehind q e).2 (behindHead e es) := by
  cases es with
  | nil =>
      obtain rfl := h.head
      exact ⟨rfl, circList_singleton (by simp [Memory.linkBehind]) (by simp [Memory.linkBehind])⟩
  | cons a es =>
      obtain rfl := h.head
      have hae : a ≠ e := fun heq => he (by simp [heq])
      have hrot : CircList (fun p => (m p).next) (fun p => (m p).prev) (es ++ [a]) :=
        (List.singleton_append ▸ h.circle :
          CircList (fun p => (m p).next) (fun p => (m p).prev) ([a] ++ es)).rotate
      obtain ⟨b, rest, hsplit⟩ : ∃ b rest, es ++ [a] = b :: rest :=
        List.exists_cons_of_ne_nil (by simp)
      rw [hsplit] at hrot
      have hfirst : (m a).next = b := hrot.next_last hsplit.symm
      have hmem : ∀ c ∈ b :: rest, c ≠ e := by
        rintro c hc rfl
        apply he
        rw [← hsplit] at hc
        simp only [List.mem_append, List.mem_cons] at hc ⊢
        tauto
      have hbe : b ≠ e := hmem b List.mem_cons_self
      have hlast : (m b).prev = a := by
        rw [← hfirst]
        exact h.circle.prev_next List.mem_cons_self
      have hinsert : CircList (fun p => ((m.linkBehind (some a) e).1 p).next)
          (fun p => ((m.linkBehind (some a) e).1 p).prev) (b :: rest ++ [e]) := by
        apply hrot.insert fun hin => hmem e hin rfl
        · intro c hc hne
          simp [Memory.linkBehind, hmem c hc, hlast ▸ hne]
        · intro c hc hne
          simp [Memory.linkBehind, hmem c hc, hae, hfirst, hne]
        · simp [Memory.linkBehind, hlast]
        · simp [Memory.linkBehind, hae, hfirst, hlast, hbe.symm]
        · simp [Memory.linkBehind, hae.symm, hfirst]
        · simp [Memory.linkBehind, hae, hfirst]
      rw [← hsplit, List.append_assoc] at hinsert
      exact ⟨rfl, hinsert.rotate⟩

end

/-! ### One edit of many queues -/

section

variable {Q P V : Type*} [DecidableEq Q] [DecidableEq P] {s : Queues Q P V}
  {l : Contents Q P V} {q r : Q} {e p : P} {v : V}

omit [DecidableEq P] in
/-- An edit of one queue keeps the others: it writes to this queue and to what is in none. -/
theorem Refines.edit {m : Memory P V} {head : Option P} {es : List P} (h : Refines s l) (q : Q)
    (hqueue : IsQueue m head es) (hvalue : ∀ p, (m p).value = (s.mem p).value)
    (hframe : ∀ r, r ≠ q → ∀ p ∈ l.entries r, m p = s.mem p)
    (hes : ∀ p ∈ es, p ∈ l.entries q ∨ (∀ r, p ∉ l.entries r) ∧ (s.mem p).value = l.value p) :
    Refines ⟨m, Function.update s.head q head⟩ ⟨Function.update l.entries q es, l.value⟩ := by
  have hapart : ∀ r, r ≠ q → es.Disjoint (l.entries r) := by
    intro r hr p hp hpr
    rcases hes p hp with hq | ⟨hnone, -⟩
    · exact h.disjoint q r hr.symm hq hpr
    · exact hnone r hpr
  constructor
  · intro r
    rcases eq_or_ne r q with rfl | hr
    · simpa using hqueue
    · simpa [hr] using (h.queue r).congr (hframe r hr)
  · intro r t hrt
    rcases eq_or_ne r q with rfl | hr
    · simpa [hrt.symm] using hapart t hrt.symm
    · rcases eq_or_ne t q with rfl | ht
      · simpa [hr] using (hapart r hr).symm
      · simpa [hr, ht] using h.disjoint r t hrt
  · intro r p hp
    rw [hvalue p]
    rcases eq_or_ne r q with rfl | hr
    · simp only [Function.update_self] at hp
      rcases hes p hp with hq | ⟨-, hnew⟩
      · exact h.value r p hq
      · exact hnew
    · simp only [Function.update_of_ne hr] at hp
      exact h.value r p hp

omit [DecidableEq Q] [DecidableEq P] in
theorem Refines.head_eq_none (h : Refines s l) (hes : l.entries q = []) : s.head q = none := by
  rw [(h.queue q).head, hes]
  rfl

omit [DecidableEq Q] [DecidableEq P] in
theorem Refines.head_ne_none (h : Refines s l) (hes : l.entries q ≠ []) : s.head q ≠ none := by
  rw [(h.queue q).head]
  exact mt List.head?_eq_none_iff.mp hes

omit [DecidableEq Q] [DecidableEq P] in
/-- `DECLARE_QUEUE`: the queues start empty. -/
theorem refines_nil (m : Memory P V) (value : P → V) :
    Refines (⟨m, fun _ => none⟩ : Queues Q P V) ⟨fun _ => [], value⟩ :=
  ⟨fun _ => isQueue_nil, fun _ _ _ => List.disjoint_nil_left [],
    fun _ _ hp => absurd hp List.not_mem_nil⟩

omit [DecidableEq Q] in
/-- A block that is in no queue may be written. -/
theorem Refines.write (h : Refines s l) (hp : ∀ r, p ∉ l.entries r) (v : V) :
    Refines ⟨Function.update s.mem p { s.mem p with value := v }, s.head⟩
      ⟨l.entries, Function.update l.value p v⟩ := by
  have hne : ∀ r, ∀ a ∈ l.entries r, a ≠ p := fun r a ha heq => hp r (heq ▸ ha)
  constructor
  · intro r
    exact (h.queue r).congr fun a ha => Function.update_of_ne (hne r a ha) _ _
  · exact h.disjoint
  · intro r a ha
    simp only [Function.update_of_ne (hne r a ha)]
    exact h.value r a ha

theorem Refines.linkLast (h : Refines s l) (q : Q) (hp : ∀ r, p ∉ l.entries r)
    (hvalue : (s.mem p).value = l.value p) :
    Refines ⟨(s.mem.linkLast (s.head q) p).1, Function.update s.head q
        (s.mem.linkLast (s.head q) p).2⟩
      ⟨Function.update l.entries q (l.entries q ++ [p]), l.value⟩ := by
  apply h.edit q ((h.queue q).linkLast (hp q)) fun a => linkLast_value
  · intro r hr a ha
    apply (h.queue q).linkLast_frame (hp q) (h.disjoint r q hr ha)
    rintro rfl
    exact hp r ha
  · intro a ha
    rcases List.mem_append.mp ha with hold | hnew
    · exact Or.inl hold
    · obtain rfl := List.mem_singleton.mp hnew
      exact Or.inr ⟨hp, hvalue⟩

theorem Refines.linkBehind (h : Refines s l) (q : Q) (hp : ∀ r, p ∉ l.entries r)
    (hvalue : (s.mem p).value = l.value p) :
    Refines ⟨(s.mem.linkBehind (s.head q) p).1, Function.update s.head q
        (s.mem.linkBehind (s.head q) p).2⟩
      ⟨Function.update l.entries q (behindHead p (l.entries q)), l.value⟩ := by
  apply h.edit q ((h.queue q).linkBehind (hp q)) fun a => linkBehind_value
  · intro r hr a ha
    apply (h.queue q).linkBehind_frame (hp q) (h.disjoint r q hr ha)
    rintro rfl
    exact hp r ha
  · intro a ha
    rcases mem_behindHead.mp ha with rfl | hold
    · exact Or.inr ⟨hp, hvalue⟩
    · exact Or.inl hold

theorem Refines.delete (h : Refines s l) (q : Q) (he : e ∈ l.entries q) :
    Refines ⟨(queueDelEntry s.mem (s.head q) e).1, Function.update s.head q
        (queueDelEntry s.mem (s.head q) e).2.1⟩
      ⟨Function.update l.entries q ((l.entries q).erase e), l.value⟩ := by
  obtain ⟨hleft, -, hframe, hvalue⟩ := queueDelEntry_spec (h.queue q) he
  apply h.edit q hleft hvalue
  · intro r hr a ha
    exact hframe a (h.disjoint r q hr ha)
  · intro a ha
    exact Or.inl (List.mem_of_mem_erase ha)

/-- A moved entry is taken out of its queue and appended to the other one. -/
theorem Refines.move {dest source : Q} (h : Refines s l) (hne : dest ≠ source)
    (he : e ∈ l.entries source) :
    Refines ⟨(queueMoveEntry s.mem (s.head dest) (s.head source) e).1,
        Function.update (Function.update s.head source
          (queueMoveEntry s.mem (s.head dest) (s.head source) e).2.2) dest
          (queueMoveEntry s.mem (s.head dest) (s.head source) e).2.1⟩
      ⟨Function.update (Function.update l.entries source ((l.entries source).erase e)) dest
        (l.entries dest ++ [e]), l.value⟩ := by
  obtain ⟨head, hhead⟩ := Option.ne_none_iff_exists'.mp (h.head_ne_none (List.ne_nil_of_mem he))
  have hnew : ∀ r, e ∉ Function.update l.entries source ((l.entries source).erase e) r := by
    intro r
    rcases eq_or_ne r source with rfl | hr
    · simpa using (h.queue r).circle.nodup.not_mem_erase
    · simpa [hr] using h.disjoint source r hr.symm he
  have hvalue : ((queueDelEntry s.mem (s.head source) e).1 e).value = l.value e := by
    rw [(queueDelEntry_spec (h.queue source) he).2.2.2, h.value source e he]
  have hin := (h.delete source he).linkLast dest hnew hvalue
  simp only [Function.update_of_ne hne, hhead] at hin
  rw [hhead]
  exact hin

omit [DecidableEq P] in
theorem eraseP_value [DecidableEq V] {es : List P} {f g : P → V} (h : ∀ p ∈ es, f p = g p) :
    es.eraseP (fun p => f p = v) = es.eraseP fun p => g p = v := by
  induction es with
  | nil => rfl
  | cons a es ih =>
      rw [List.eraseP_cons, List.eraseP_cons, h a List.mem_cons_self,
        ih fun p hp => h p (List.mem_cons_of_mem a hp)]

/-- The first entry with the value goes, and the result tells whether there was one. -/
theorem Refines.remove [Fintype P] [DecidableEq V] (h : Refines s l) (q : Q) (v : V) :
    ∃ m head found, remQueue s.mem (s.head q) v = some (m, head, found) ∧
      (found.isSome ↔ ∃ p ∈ l.entries q, l.value p = v) ∧
      Refines ⟨m, Function.update s.head q head⟩
        ⟨Function.update l.entries q ((l.entries q).eraseP fun p => l.value p = v), l.value⟩ := by
  obtain ⟨m, head, hcall, hleft, hframe, hvalue⟩ := remQueue_spec (h.queue q) v
  refine ⟨m, head, _, hcall, ?_, ?_⟩
  · simp only [List.find?_isSome, decide_eq_true_eq]
    apply exists_congr
    intro p
    apply and_congr_right
    intro hp
    rw [h.value q p hp]
  · rw [eraseP_value (h.value q)] at hleft
    apply h.edit q hleft hvalue
    · intro r hr a ha
      exact hframe a (h.disjoint r q hr ha)
    · intro a ha
      exact Or.inl (List.mem_of_mem_eraseP ha)

/-- The calls on the queues do what they do on the lists. -/
theorem perform_refines [Fintype P] [DecidableEq V] {c : Call Q P V} (h : Refines s l)
    (hallowed : Allowed l c) :
    ∃ s', s.perform c = some (s', (l.perform c).2) ∧ Refines s' (l.perform c).1 := by
  cases c with
  | addQueue q v block =>
      cases block with
      | none => exact ⟨s, rfl, h⟩
      | some p =>
          have hp := hallowed p rfl
          exact ⟨_, rfl, (h.write hp v).linkLast q hp (by simp)⟩
  | addQueueHead q v block =>
      cases block with
      | none => exact ⟨s, rfl, h⟩
      | some p =>
          have hp := hallowed p rfl
          exact ⟨_, rfl, (h.write hp v).linkBehind q hp (by simp)⟩
  | remQueue q v =>
      obtain ⟨m, head, found, hcall, hfound, hrefines⟩ := h.remove q v
      refine ⟨_, ?_, hrefines⟩
      simp only [Queues.perform, Contents.perform, hcall, Option.map_some, hfound]
  | queueDelEntry q entry =>
      rcases eq_or_ne (l.entries q) [] with hes | hes
      · have hnone := h.head_eq_none hes
        have hhead : Function.update s.head q none = s.head :=
          hnone ▸ Function.update_eq_self q s.head
        have hentries : Function.update l.entries q [] = l.entries :=
          hes ▸ Function.update_eq_self q l.entries
        refine ⟨s, ?_, ?_⟩
        · simp only [Queues.perform, Contents.perform, hnone, hes, queueDelEntry, hhead, if_true]
        · simpa only [Contents.perform, hes, List.erase_nil, hentries] using h
      · have he := hallowed hes
        have hresult := (queueDelEntry_spec (h.queue q) he).2.1
        refine ⟨_, ?_, h.delete q he⟩
        simp only [Queues.perform, Contents.perform, hresult, if_neg hes]
  | queueMoveEntry dest source entry =>
      obtain ⟨hne, he⟩ := hallowed
      rcases eq_or_ne (l.entries source) [] with hes | hes
      · have hnone := h.head_eq_none hes
        have hsource : Function.update s.head source none = s.head :=
          hnone ▸ Function.update_eq_self source s.head
        refine ⟨s, ?_, ?_⟩
        · simp [Queues.perform, Contents.perform, hnone, hes, queueMoveEntry, hsource]
        · simpa only [Contents.perform, hes, if_true] using h
      · have hmove := h.move hne (he hes)
        have hsome := Option.isSome_iff_ne_none.mpr (h.head_ne_none hes)
        simp only [Queues.perform, Contents.perform, if_neg hes, hsome, if_true]
        exact ⟨_, rfl, hmove⟩

/-- In every sequence of calls, the queues give the results of the lists and hold what these
hold. -/
theorem queues_refine_lists [Fintype P] [DecidableEq V] {l' : Contents Q P V}
    {calls : List (Call Q P V × Int)} (h : Refines s l) (hrun : Run Answers l calls l') :
    ∃ s', Run Performs s calls s' ∧ Refines s' l' ∧
      ∀ q, Enumerates s'.mem (s'.head q) (l'.entries q) := by
  have hstep : ∀ (l : Contents Q P V) c l' (s : Queues Q P V), Refines s l → Answers l c l' →
      ∃ s', Performs s c s' ∧ Refines s' l' := by
    rintro l ⟨c, result⟩ l' s h ⟨hallowed, hanswer⟩
    obtain ⟨s', hperform, hrefines⟩ := perform_refines h hallowed
    rw [hanswer] at hperform hrefines
    exact ⟨s', hperform, hrefines⟩
  obtain ⟨s', hruns, hrefines⟩ := hrun.simulates (R := fun l s => Refines s l) hstep h
  exact ⟨s', hruns, hrefines, fun q => (hrefines.queue q).enumerates⟩

end

/-- Two entries, each linked to itself. -/
def selfLinked : Memory (Fin 2) Bool := fun p => ⟨false, p, p⟩

/-- Two empty queues over them. -/
def emptyLists : Contents Bool (Fin 2) Bool := ⟨fun _ => [], fun _ => false⟩

def firstCall (entry : Fin 2) : Call Bool (Fin 2) Bool := .addQueueHead false true (some entry)

def secondCall (entry : Fin 2) : Call Bool (Fin 2) Bool := .queueMoveEntry true false entry

/-- An entry is added to one queue and moves to the other one. -/
theorem queues_refine_lists_moved :
    ∃ s', Run Performs ⟨selfLinked, fun _ => none⟩ [(firstCall 0, 0), (secondCall 0, 0)] s' ∧
      Refines s' ((emptyLists.perform (firstCall 0)).1.perform (secondCall 0)).1 ∧
        ∀ q, Enumerates s'.mem (s'.head q)
          (((emptyLists.perform (firstCall 0)).1.perform (secondCall 0)).1.entries q) := by
  apply queues_refine_lists (refines_nil selfLinked fun _ => false)
  apply Run.cons (t := (emptyLists.perform (firstCall 0)).1)
  · exact ⟨fun p _ r => List.not_mem_nil, rfl⟩
  · apply Run.single
    exact ⟨⟨by decide, fun _ => List.mem_singleton_self 0⟩, rfl⟩

/-- The new entry does not come in front of the one that is there. -/
theorem addQueueHead_behind : IsQueue selfLinked (some 0) [0] ∧
    ¬∃ m' q', addQueueHead selfLinked (some 0) true (some 1) = some (m', q') ∧
      IsQueue m' q' [1, 0] := by
  constructor
  · exact ⟨rfl, circList_singleton rfl rfl⟩
  · rintro ⟨m', q', hcall, hqueue⟩
    have hhead : some 0 = q' := congrArg (fun r => (r.map Prod.snd).join) hcall
    exact absurd (hhead.trans hqueue.head) (by decide)

end OsdevArchive.Minirighi.Queue
