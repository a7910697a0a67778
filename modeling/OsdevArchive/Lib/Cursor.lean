import OsdevArchive.Lib.Runs
import Mathlib.Algebra.Order.Ring.Int

/-!
Files that are read from a cursor on. A driver gives the calls on its sessions; a call may
leave nothing behind of which anything is known, and then no session is left. What is expected
of a call is said of what a session shows: how long the file is, what it holds and where the
cursor stands.
-/

namespace OsdevArchive.Lib.Cursor

open OsdevArchive.Lib.Runs

variable {β ι μ σ : Type*}

structure View (β : Type*) where
  size : Int
  cursor : Int
  content : Int → β

/-- The cursor is in the file or at its end. -/
def View.Within (v : View β) : Prop := 0 ≤ v.cursor ∧ v.cursor ≤ v.size

inductive Call (μ ι β : Type*) where
  | seek (mode : μ) (offset : ι)
  | read (count : ι) (buffer : Int → β)

/-- A value that is returned, the session and the buffer. -/
structure Result (σ β : Type*) where
  value : Int
  session : σ
  buffer : Int → β

/-- The calls of a driver; what its numbers stand for, where a seek goes and which ones it
accepts. -/
structure Driver (σ μ ι β : Type*) where
  view : σ → View β
  int : ι → Int
  position : View β → μ → Int → Int
  accepts : σ → μ → ι → Prop
  call : σ → Call μ ι β → Option (Result σ β)

namespace Driver

variable (d : Driver σ μ ι β)

/-- An accepted seek goes where it asks to, and any other one nowhere; a read of no negative
count returns what there is from the cursor on, and moves the cursor behind it. -/
def Answers (s : σ) (r : Result σ β) : Call μ ι β → Prop
  | .seek mode offset =>
      (d.accepts s mode offset →
        (d.view r.session).cursor = d.position (d.view s) mode (d.int offset)) ∧
      (¬d.accepts s mode offset → (d.view r.session).cursor = (d.view s).cursor)
  | .read count _ => 0 ≤ d.int count →
      r.value = min (d.int count) ((d.view s).size - (d.view s).cursor) ∧
      (∀ k, 0 ≤ k → k < r.value → r.buffer k = (d.view s).content ((d.view s).cursor + k)) ∧
      (d.view r.session).cursor = (d.view s).cursor + r.value

/-- What is expected of a call. -/
structure Expected (s : σ) (c : Call μ ι β) (r : Result σ β) : Prop where
  size : (d.view r.session).size = (d.view s).size
  content : (d.view r.session).content = (d.view s).content
  within : (d.view r.session).Within
  answers : d.Answers s r c

/-- The session behind a call. -/
def step : Option σ → Call μ ι β → Option σ
  | none, _ => none
  | some s, c => (d.call s c).map Result.session

/-- A call comes back, and does what is expected. -/
def Meets (s : Option σ) (c : Call μ ι β) (_ : Option σ) : Prop :=
  ∃ s', s = some s' ∧ ∃ r, d.call s' c = some r ∧ d.Expected s' c r

/-- A condition on the calls, where there is a session. -/
def Allowed (ok : σ → Call μ ι β → Prop) (s : Option σ) (c : Call μ ι β) : Prop :=
  ∃ s', s = some s' ∧ ok s' c

variable {d} {ok : σ → Call μ ι β → Prop}

/-- An accepted seek goes to a place in the file. -/
theorem expected_seek {s : σ} {mode : μ} {offset : ι} {r : Result σ β}
    (haccepted : d.accepts s mode offset)
    (hview : d.view r.session =
      { d.view s with cursor := d.position (d.view s) mode (d.int offset) })
    (hin : 0 ≤ d.position (d.view s) mode (d.int offset) ∧
      d.position (d.view s) mode (d.int offset) ≤ (d.view s).size) :
    d.Expected s (.seek mode offset) r := by
  refine ⟨?_, ?_, ?_, fun _ => ?_, fun hnot => absurd haccepted hnot⟩
  · rw [hview]
  · rw [hview]
  · rw [hview]
    exact hin
  · rw [hview]

/-- A seek that moves nothing, as expected if it is not accepted or asks for nothing else. -/
theorem expected_stay {s : σ} {mode : μ} {offset : ι} {r : Result σ β}
    (hin : (d.view s).Within) (hview : d.view r.session = d.view s)
    (hhere : d.accepts s mode offset →
      d.position (d.view s) mode (d.int offset) = (d.view s).cursor) :
    d.Expected s (.seek mode offset) r := by
  refine ⟨?_, ?_, ?_, fun haccepted => ?_, fun _ => ?_⟩
  · rw [hview]
  · rw [hview]
  · rw [hview]
    exact hin
  · rw [hview]
    exact (hhere haccepted).symm
  · rw [hview]

/-- A read that returns what there is from the cursor on, and no more. -/
theorem expected_read {s : σ} {count : ι} {buffer : Int → β} {r : Result σ β}
    (hin : (d.view s).Within) (hvalue : 0 ≤ r.value)
    (hle : r.value ≤ (d.view s).size - (d.view s).cursor)
    (hmin : 0 ≤ d.int count → r.value = min (d.int count) ((d.view s).size - (d.view s).cursor))
    (hview : d.view r.session = { d.view s with cursor := (d.view s).cursor + r.value })
    (hbuffer : ∀ k, 0 ≤ k → k < r.value → r.buffer k = (d.view s).content ((d.view s).cursor + k)) :
    d.Expected s (.read count buffer) r := by
  obtain ⟨hlow, hhigh⟩ := hin
  refine ⟨?_, ?_, ?_, fun hcount => ?_⟩
  · rw [hview]
  · rw [hview]
  · rw [hview]
    exact ⟨Int.add_nonneg hlow hvalue, by simp only; omega⟩
  · exact ⟨hmin hcount, hbuffer, congrArg View.cursor hview⟩

/-- Where the calls that do what is expected are those that meet a condition, so it is in a
row of calls. -/
theorem run_iff_guarded
    (hcall : ∀ s c, (d.view s).Within → ((∃ r, d.call s c = some r ∧ d.Expected s c r) ↔ ok s c))
    {s : σ} (hs : (d.view s).Within) (calls : List (Call μ ι β)) (t : Option σ) :
    Run (fun s c t => Updates d.step s c t ∧ d.Meets s c t) (some s) calls t ↔
      Run (Guarded (Allowed ok) (Updates d.step)) (some s) calls t := by
  apply Run.meets_iff_guarded (I := fun s => ∀ s', s = some s' → (d.view s').Within)
  · intro s c t hin _
    constructor
    · rintro ⟨s', rfl, hmeets⟩
      exact ⟨s', rfl, (hcall s' c (hin s' rfl)).mp hmeets⟩
    · rintro ⟨s', rfl, hok⟩
      exact ⟨s', rfl, (hcall s' c (hin s' rfl)).mpr hok⟩
  · rintro _ c _ hin rfl ⟨s', rfl, r, hr, hexpected⟩ t' ht'
    obtain rfl : r.session = t' := by simpa [step, hr] using ht'
    exact hexpected.within
  · rintro _ ⟨⟩
    exact hs

end Driver

end OsdevArchive.Lib.Cursor
