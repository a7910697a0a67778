import OsdevArchive.Lib.Chained
import Mathlib.Logic.Function.Basic

/-!
Blocks that belong to owners. An owner is known by its first block, which has a link of its own,
`head`, to the chain of its further blocks. Every block of an owner is marked, and no block
belongs to two owners. The lemmas say what a change of the links, a new owner and the end of an
owner have to respect.
-/

namespace OsdevArchive.Lib.Owners

open OsdevArchive.Lib.Chained

variable {κ : Type*} {head next : κ → κ} {stop : κ → Prop} {marked : κ → Prop}

/-- The owner with the first block `b` has the blocks `l`. -/
def Owns (head next : κ → κ) (stop : κ → Prop) (b : κ) (l : List κ) : Prop :=
  ∃ cs, l = b :: cs ∧ Chain next stop (head b) cs

/-- The blocks of each owner are marked, and those of all of them are different. -/
structure Owned (head next : κ → κ) (stop : κ → Prop) (marked : κ → Prop) (owners : List κ)
    (chain : κ → List κ) : Prop where
  owns : ∀ b ∈ owners, Owns head next stop b (chain b)
  disjoint : (owners.flatMap chain).Nodup
  marked : ∀ c ∈ owners.flatMap chain, marked c

variable {owners owners' : List κ} {chain : κ → List κ} {b : κ} {l : List κ}

theorem Owns.mem (h : Owns head next stop b l) : b ∈ l := by
  obtain ⟨cs, rfl, -⟩ := h
  exact List.mem_cons_self

theorem Owns.congr {head' next' : κ → κ} (h : Owns head next stop b l)
    (hsame : ∀ c ∈ l, head' c = head c ∧ next' c = next c) : Owns head' next' stop b l := by
  obtain ⟨cs, rfl, hcs⟩ := h
  refine ⟨cs, rfl, ?_⟩
  rw [(hsame b List.mem_cons_self).1]
  exact hcs.congr fun d hd => (hsame d (List.mem_cons_of_mem b hd)).2

theorem owned_nil : Owned head next stop marked [] chain where
  owns := fun _ hb => absurd hb List.not_mem_nil
  disjoint := List.nodup_nil
  marked := fun _ hc => absurd hc List.not_mem_nil

theorem Owned.chain_marked (h : Owned head next stop marked owners chain) (hb : b ∈ owners) {c : κ}
    (hc : c ∈ chain b) : marked c :=
  h.marked c (List.mem_flatMap.mpr ⟨b, hb, hc⟩)

theorem Owned.owner_marked (h : Owned head next stop marked owners chain) (hb : b ∈ owners) :
    marked b :=
  h.chain_marked hb (h.owns b hb).mem

theorem Owned.perm (h : Owned head next stop marked owners chain) (hp : owners'.Perm owners) :
    Owned head next stop marked owners' chain where
  owns := fun b hb => h.owns b (hp.mem_iff.mp hb)
  disjoint := (hp.flatMap_right chain).nodup_iff.mpr h.disjoint
  marked := fun c hc => h.marked c ((hp.flatMap_right chain).mem_iff.mp hc)

/-- Links and marks may change as far as the blocks of the owners keep theirs. -/
theorem Owned.change {head' next' : κ → κ} {marked' : κ → Prop}
    (h : Owned head next stop marked owners chain)
    (hsame : ∀ c ∈ owners.flatMap chain, head' c = head c ∧ next' c = next c ∧ marked' c) :
    Owned head' next' stop marked' owners chain where
  owns := fun b hb => (h.owns b hb).congr fun c hc => by
    obtain ⟨hhead, hnext, -⟩ := hsame c (List.mem_flatMap.mpr ⟨b, hb, hc⟩)
    exact ⟨hhead, hnext⟩
  disjoint := h.disjoint
  marked := fun c hc => (hsame c hc).2.2

/-- An owner ends. -/
theorem Owned.tail (h : Owned head next stop marked (b :: owners) chain) :
    Owned head next stop marked owners chain ∧ ∀ c ∈ owners.flatMap chain, c ∉ chain b := by
  have hdisjoint := h.disjoint
  rw [List.flatMap_cons] at hdisjoint
  obtain ⟨-, hrest, hapart⟩ := List.nodup_append.mp hdisjoint
  refine ⟨⟨fun a ha => h.owns a (List.mem_cons_of_mem b ha), hrest, fun c hc => h.marked c ?_⟩,
    fun c hc hb => hapart c hb c hc rfl⟩
  rw [List.flatMap_cons]
  exact List.mem_append_right _ hc

variable [DecidableEq κ]

/-- A new owner gets blocks that belong to nobody. -/
theorem Owned.cons (h : Owned head next stop marked owners chain)
    (howns : Owns head next stop b l) (hnodup : l.Nodup)
    (hnew : ∀ c ∈ l, marked c ∧ c ∉ owners.flatMap chain) :
    Owned head next stop marked (b :: owners) (Function.update chain b l) := by
  have hb : b ∉ owners := fun hmem =>
    (hnew b howns.mem).2 (List.mem_flatMap.mpr ⟨b, hmem, (h.owns b hmem).mem⟩)
  have hother (a : κ) (ha : a ∈ owners) : Function.update chain b l a = chain a := by
    apply Function.update_of_ne
    rintro rfl
    exact hb ha
  have hflat : (b :: owners).flatMap (Function.update chain b l) = l ++ owners.flatMap chain := by
    rw [List.flatMap_cons, Function.update_self, List.flatMap_congr hother]
  refine ⟨fun a ha => ?_, ?_, fun c hc => ?_⟩
  · obtain rfl | ha := List.mem_cons.mp ha
    · rw [Function.update_self]
      exact howns
    · rw [hother a ha]
      exact h.owns a ha
  · rw [hflat]
    refine List.nodup_append.mpr ⟨hnodup, h.disjoint, ?_⟩
    rintro c hc _ hc' rfl
    exact (hnew c hc).2 hc'
  · rw [hflat] at hc
    obtain hc | hc := List.mem_append.mp hc
    · exact (hnew c hc).1
    · exact h.marked c hc

end OsdevArchive.Lib.Owners
