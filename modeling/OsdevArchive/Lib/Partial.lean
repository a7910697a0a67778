import Mathlib.Data.Option.Basic

/-!
Computations that may fail. `Gives x c a` says when `x` succeeds and with what: a chain
of such computations succeeds when each of them does in the state that the one before it
leaves.
-/

namespace OsdevArchive.Lib.Partial

variable {α β : Type*}

/-- `x` succeeds if and only if `c` holds, and then with `a`. -/
def Gives (x : Option α) (c : Prop) (a : α) : Prop := ∀ b, x = some b ↔ c ∧ b = a

variable {x : Option α} {c d : Prop} {a b : α}

theorem Gives.eq_some (h : Gives x c a) (hc : c) : x = some a := (h a).mpr ⟨hc, rfl⟩

theorem Gives.holds (h : Gives x c a) (hx : x = some b) : c := ((h b).mp hx).1

theorem Gives.eq (h : Gives x c a) (hx : x = some b) : b = a := ((h b).mp hx).2

theorem Gives.congr (h : Gives x c a) (hc : c ↔ d) (ha : a = b) : Gives x d b := by
  subst ha
  exact fun e => (h e).trans (and_congr_left fun _ => hc)

theorem gives_some (a : α) : Gives (some a) True a := fun b => by
  rw [Option.some.injEq, true_and, eq_comm]

theorem gives_none (a : α) : Gives none False a := fun b => by simp

theorem Gives.bind {f : α → Option β} {e : β} (h : Gives x c a) (hf : Gives (f a) d e) :
    Gives (x.bind f) (c ∧ d) e := by
  intro b
  rw [Option.bind_eq_some_iff]
  constructor
  · rintro ⟨a', hx, hb⟩
    obtain rfl := h.eq hx
    exact ⟨⟨h.holds hx, hf.holds hb⟩, hf.eq hb⟩
  · rintro ⟨⟨hc, hd⟩, rfl⟩
    exact ⟨a, h.eq_some hc, hf.eq_some hd⟩

theorem Gives.map {f : α → β} (h : Gives x c a) : Gives (x.bind fun a => some (f a)) c (f a) :=
  (h.bind (gives_some (f a))).congr (and_iff_left trivial) rfl

end OsdevArchive.Lib.Partial
