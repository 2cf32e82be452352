import Mathlib.Data.List.Basic
import Mathlib.Tactic.Common

/-!
# The first hit of a scan

Rows of entries are scanned one after the other, each from its first entry on, until an entry hits.

* **`IsFirst`** — the entry hits and no entry before it does.
* **`scan_isFirst`**, **`scan_isSome_iff`** — the scan ends at the first hit, if there is one.
* **`findSome?_getElem?_range`** — a list scanned by its indices.
* **`map_find?_filter_eq_iff`** — a scan that gives up when its first hit fails a second test.
* **`find?_filter_eq_getLast?_iff`** — the first hit against the last.
-/

namespace FirstHit

section

variable (n : ℕ) (count : ℕ → ℕ) (hit : ℕ → ℕ → Prop)

/-- The entry `j` of the row `i` hits. -/
def Hits (i j : ℕ) : Prop := i < n ∧ j < count i ∧ hit i j

/-- The entry hits and stands before every other that does. -/
def IsFirst (i j : ℕ) : Prop :=
  Hits n count hit i j ∧ ∀ i' j', Hits n count hit i' j' → i < i' ∨ i = i' ∧ j ≤ j'

/-- The scan of the rows. -/
def scan [∀ i, DecidablePred (hit i)] : Option (ℕ × ℕ) :=
  (List.range n).findSome? fun i => ((List.range (count i)).find? (hit i)).map fun j => (i, j)

end

variable {n : ℕ} {count : ℕ → ℕ} {hit : ℕ → ℕ → Prop} [∀ i, DecidablePred (hit i)]

/-- A row without a hit. -/
theorem row_eq_none_iff {i : ℕ} :
    ((List.range (count i)).find? (hit i)).map (fun j => (i, j)) = none ↔ ∀ j < count i, ¬ hit i j := by
  rw [Option.map_eq_none_iff, List.find?_range_eq_none]
  simp only [Bool.not_eq_true', decide_eq_false_iff_not]

/-- What the scan finds is the first hit, -/
theorem scan_isFirst {i j : ℕ} (h : scan n count hit = some (i, j)) : IsFirst n count hit i j := by
  obtain ⟨before, row, after, hrange, hrow, hbefore⟩ := List.findSome?_eq_some_iff.mp h
  obtain ⟨j', hfind, heq⟩ := Option.map_eq_some_iff.mp hrow
  cases heq
  obtain ⟨hhit, hmem, hfirst⟩ := List.find?_range_eq_some.mp hfind
  -- the rows before `i` are those that come before it in the range
  have hat : (List.range n)[before.length]? = some i := by
    rw [hrange, List.getElem?_append_right (Nat.le_refl _), Nat.sub_self, List.getElem?_cons_zero]
  have hin : i ∈ List.range n := List.mem_of_getElem? hat
  have hlen : before.length = i := by
    rw [List.getElem?_range (by rw [← List.length_range (n := n), hrange, List.length_append, List.length_cons]
                                omega)] at hat
    exact Option.some.inj hat
  refine ⟨⟨List.mem_range.mp hin, List.mem_range.mp hmem, by simpa using hhit⟩, ?_⟩
  rintro i' j' ⟨hi', hj', hhit'⟩
  rcases Nat.lt_trichotomy i i' with hlt | rfl | hgt
  · exact Or.inl hlt
  · refine Or.inr ⟨rfl, Nat.le_of_not_lt fun hless => ?_⟩
    have hno := hfirst j' hless
    simp [hhit'] at hno
  · -- an earlier row has no hit
    have hprev : i' ∈ before := by
      have hget : (List.range n)[i']? = some i' := List.getElem?_range hi'
      rw [hrange, List.getElem?_append_left (by omega)] at hget
      exact List.mem_of_getElem? hget
    exact absurd hhit' (row_eq_none_iff.mp (hbefore i' hprev) j' hj')

theorem scan_isSome_iff : (scan n count hit).isSome ↔ ∃ i j, Hits n count hit i j := by
  rw [← not_iff_not, Option.not_isSome_iff_eq_none]
  unfold scan
  rw [List.findSome?_eq_none_iff]
  simp only [row_eq_none_iff, List.mem_range]
  constructor
  · rintro hnone ⟨i, j, hi, hj, hhit⟩
    exact hnone i hi j hj hhit
  · exact fun hnone i hi j hj hhit => hnone ⟨i, j, hi, hj, hhit⟩

/-! ## Lists

The same for the elements of a list: when the search for the first hit gives the same result as a search in
another order or through a part of the list. -/

section

variable {α β : Type*}

theorem findSome?_getElem?_range (l : List α) (f : α → Option β) :
    (List.range l.length).findSome? (fun i => l[i]?.bind f) = l.findSome? f := by
  have hmap : (List.range l.length).map (fun i => l[i]?) = l.map some := by
    refine List.ext_getElem? fun i => ?_
    rw [List.getElem?_map, List.getElem?_map]
    by_cases hi : i < l.length
    · rw [List.getElem?_range hi, Option.map_some, List.getElem?_eq_getElem hi, Option.map_some]
    · rw [List.getElem?_eq_none (by rw [List.length_range]; omega), List.getElem?_eq_none (by omega)]
      rfl
  have hleft := List.findSome?_map (f := fun i => l[i]?) (p := fun a => a.bind f) (l := List.range l.length)
  have hright := List.findSome?_map (f := some) (p := fun a => a.bind f) (l := l)
  rw [hmap, hright] at hleft
  exact hleft.symm

theorem findSome?_filter (l : List α) (p : α → Bool) (f : α → Option β) :
    (l.filter p).findSome? f = l.findSome? fun a => if p a then f a else none := by
  induction l with
  | nil => rfl
  | cons a l ih =>
    by_cases hp : p a
    · rw [List.filter_cons_of_pos hp, List.findSome?_cons, List.findSome?_cons, if_pos hp, ih]
    · rw [List.filter_cons_of_neg hp, List.findSome?_cons, if_neg hp, ih]

/-- A scan that gives up when its first hit fails a second test finds the first element that passes both if
and only if none does, or the first hit does. -/
theorem find?_filter_eq_iff (l : List α) (p q : α → Bool) :
    (l.find? p).filter q = l.find? (fun a => p a && q a)
      ↔ (∀ a ∈ l, p a → ¬ q a) ∨ ∃ a, l.find? p = some a ∧ q a := by
  induction l with
  | nil => exact iff_of_true rfl (Or.inl fun _ ha => absurd ha List.not_mem_nil)
  | cons a l ih =>
    -- the first hit of `p` is at `a`, or behind
    by_cases hp : p a
    · rw [List.find?_cons_of_pos hp]
      by_cases hq : q a
      · rw [List.find?_cons_of_pos (by rw [hp, hq]; rfl), Option.filter_some_pos hq]
        exact iff_of_true rfl (Or.inr ⟨a, rfl, hq⟩)
      · rw [List.find?_cons_of_neg (by simp [hq]), Option.filter_some_neg (by simpa using hq)]
        constructor
        · intro hnone
          left
          intro b hb hpb hqb
          rcases List.mem_cons.mp hb with rfl | hb
          · exact hq hqb
          · exact List.find?_eq_none.mp hnone.symm b hb (by rw [hpb, hqb]; rfl)
        · rintro (hnone | ⟨b, heq, hqb⟩)
          · refine (List.find?_eq_none.mpr fun b hb hboth => ?_).symm
            rw [Bool.and_eq_true] at hboth
            exact hnone b (List.mem_cons_of_mem _ hb) hboth.1 hboth.2
          · cases heq
            exact absurd hqb hq
    · rw [List.find?_cons_of_neg hp, List.find?_cons_of_neg (by simp [hp]), ih]
      refine or_congr_left ⟨fun hall b hb hpb => ?_, fun hall b hb => hall b (List.mem_cons_of_mem _ hb)⟩
      rcases List.mem_cons.mp hb with rfl | hb
      · exact absurd hpb hp
      · exact hall b hb hpb

/-- The same for what is found. -/
theorem map_find?_filter_eq_iff (l : List α) (p q : α → Bool) (f : α → β) :
    ((l.find? p).filter q).map f = (l.find? (fun a => p a && q a)).map f
      ↔ (∀ a ∈ l, p a → ¬ q a) ∨ ∃ a, l.find? p = some a ∧ q a := by
  rw [← find?_filter_eq_iff]
  cases hfound : (l.find? p).filter q with
  | none => rw [Option.map_none, eq_comm, Option.map_eq_none_iff, eq_comm]
  | some a =>
    obtain ⟨hfirst, hq⟩ := Option.filter_eq_some_iff.mp hfound
    have hsame := (find?_filter_eq_iff l p q).mpr (Or.inr ⟨a, hfirst, hq⟩)
    rw [hfound] at hsame
    rw [← hsame]
    exact iff_of_true rfl rfl

/-- The first hit, if it passes a second test, is the last element that passes both, if and only if nothing
that hits stands before an element that passes both. -/
theorem find?_filter_eq_getLast?_iff {l : List α} (hnodup : l.Nodup) (p q : α → Bool) :
    (l.find? p).filter q = (l.filter fun a => p a && q a).getLast?
      ↔ ∀ c w, [c, w].Sublist l → p w → q w → ¬ p c := by
  induction l with
  | nil => exact iff_of_true rfl fun _ _ h => nomatch h
  | cons a l ih =>
    obtain ⟨hnot, hnodup⟩ := List.nodup_cons.mp hnodup
    by_cases hp : p a
    · -- both sides say that nothing behind `a` passes both tests
      have hnone : (∀ c w, [c, w].Sublist (a :: l) → p w → q w → ¬ p c)
          ↔ (l.filter fun a => p a && q a) = [] := by
        rw [List.filter_eq_nil_iff]
        constructor
        · intro hall w hw hboth
          rw [Bool.and_eq_true] at hboth
          exact hall a w ((List.singleton_sublist.mpr hw).cons_cons a) hboth.1 hboth.2 hp
        · intro hnone c w hsub hpw hqw
          have hw : w ∈ l := by
            cases hsub with
            | cons _ hsub => exact hsub.subset (List.mem_cons_of_mem c List.mem_cons_self)
            | cons_cons _ hsub => exact List.singleton_sublist.mp hsub
          exact absurd (by rw [hpw, hqw]; rfl) (hnone w hw)
      rw [hnone, List.find?_cons_of_pos hp]
      by_cases hq : q a
      · rw [Option.filter_some_pos hq, List.filter_cons_of_pos (by rw [hp, hq]; rfl)]
        cases hrest : l.filter fun a => p a && q a with
        | nil => exact iff_of_true rfl rfl
        | cons b rest =>
          refine iff_of_false (fun heq => hnot ?_) (List.cons_ne_nil b rest)
          rw [List.getLast?_cons_cons] at heq
          have hmem := List.mem_of_getLast? heq.symm
          rw [← hrest] at hmem
          exact List.mem_of_mem_filter hmem
      · rw [Option.filter_some_neg (by simpa using hq), List.filter_cons_of_neg (by simp [hq]), eq_comm,
          List.getLast?_eq_none_iff]
    · rw [List.find?_cons_of_neg hp, List.filter_cons_of_neg (by simp [hp]), ih hnodup]
      refine ⟨fun hall c w hsub => ?_, fun hall c w hsub => hall c w (hsub.cons a)⟩
      cases hsub with
      | cons _ hsub => exact hall c w hsub
      | cons_cons _ hsub => exact fun _ _ => hp

end

end FirstHit
