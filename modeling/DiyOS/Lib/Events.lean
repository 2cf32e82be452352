import Mathlib.Data.List.Induction
import Mathlib.Tactic.Common

/-!
# What a sequence of events leaves

A variable that some events set is what the last of them says, and a flag that some events toggle is the
parity of their number.

* **`lastEvent`** — what the last of the events says that `g` knows.
* **`foldl_getD`**, **`foldl_toggle`** — the two kinds of variables.
* **`lastEvent_of_last`** — the last event of a larger kind decides.
-/

section

variable {ε α : Type*} {g : ε → Option α} {p : ε → Bool}

def lastEvent (g : ε → Option α) (es : List ε) : Option α := (es.filterMap g).getLast?

theorem lastEvent_snoc (es : List ε) (e : ε) : lastEvent g (es ++ [e]) = (g e).or (lastEvent g es) := by
  unfold lastEvent
  rw [List.filterMap_append, List.getLast?_append]
  cases h : g e with
  | none => simp [h]
  | some a => simp [h]

/-- A variable that the events set. -/
theorem foldl_getD (es : List ε) (v : α) :
    es.foldl (fun v e => (g e).getD v) v = (lastEvent g es).getD v := by
  induction es using List.reverseRecOn with
  | nil => rfl
  | append_singleton es e ih =>
    rw [List.foldl_append, List.foldl_cons, List.foldl_nil, lastEvent_snoc, ih]
    cases g e with
    | none => rfl
    | some a => rfl

/-- A flag that the events toggle. -/
theorem foldl_toggle (es : List ε) (v : Bool) : es.foldl (fun v e => if p e then !v else v) v
    = xor v (decide (es.countP p % 2 = 1)) := by
  induction es generalizing v with
  | nil => simp
  | cons e es ih =>
    rw [List.foldl_cons, ih, List.countP_cons]
    cases p e with
    | false => simp
    | true =>
      have hparity : decide ((es.countP p + 1) % 2 = 1) = !decide (es.countP p % 2 = 1) := by
        rw [← decide_not, decide_eq_decide]
        omega
      simp [hparity]

/-- The last event with `p` is the last one for `g` too, if `g` knows it and knows no event without `p`. -/
theorem lastEvent_of_last {es : List ε} {e : ε} {a : α} (hp : ∀ e, (g e).isSome → p e)
    (hlast : (es.filter p).getLast? = some e) (he : g e = some a) : lastEvent g es = some a := by
  induction es using List.reverseRecOn with
  | nil => cases hlast
  | append_singleton es e' ih =>
    rw [lastEvent_snoc]
    rw [List.filter_append, List.getLast?_append] at hlast
    cases hin : p e' with
    | true =>
      have heq : e' = e := by simpa [hin] using hlast
      rw [heq, he]
      rfl
    | false =>
      have hnone : g e' = none := by
        by_contra hne
        exact Bool.false_ne_true (hin.symm.trans (hp e' (Option.isSome_iff_ne_none.mpr hne)))
      rw [hnone]
      exact ih (by simpa [hin] using hlast)

theorem lastEvent_of_filter_eq_nil {es : List ε} (hp : ∀ e, (g e).isSome → p e)
    (hnone : es.filter p = []) : lastEvent g es = none := by
  have hmap : es.filterMap g = [] := by
    rw [List.filterMap_eq_nil_iff]
    intro e he
    by_contra hne
    exact List.filter_eq_nil_iff.mp hnone e he (hp e (Option.isSome_iff_ne_none.mpr hne))
  unfold lastEvent
  rw [hmap]
  rfl

end
