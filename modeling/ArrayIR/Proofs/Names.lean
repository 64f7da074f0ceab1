/-
  ArrayIR.Proofs.Names — the names that a session gives out.

  Temporaries, copies of variables and new functions are all named by `Session.fresh`.
  Whatever is asked for, in whatever order, no two of the names given are the same: they
  differ in the digits after their last dot, which no stem reaches into.

  A name that has been given splits at that dot into the stem it was made from and its
  number (`splitLastDot_numbered`), and gives up the number when it is asked for again.
  So a name that is refreshed again and again is always its first stem and one number
  (`Session.Refreshes.name`).
-/

import ArrayIR.Session

namespace ArrayIR

/-! ## Stems -/

theorem dropWhile_before_dot {ds : List Char} (h : ∀ c ∈ ds, c ≠ '.') (cs : List Char) :
    (ds ++ '.' :: cs).dropWhile (· ≠ '.') = '.' :: cs := by
  induction ds with
  | nil => rfl
  | cons d ds ih =>
    have hd := h d List.mem_cons_self
    rw [List.cons_append, List.dropWhile_cons_of_pos (by simpa using hd),
      ih fun c hc => h c (List.mem_cons_of_mem _ hc)]

/-- The last dot is the one ahead of characters that are not dots. -/
theorem splitLastDot_append {after : List Char} (h : ∀ c ∈ after, c ≠ '.') (before : List Char) :
    splitLastDot (before ++ '.' :: after) = some (before, after) := by
  have hback : (before ++ '.' :: after).reverse = after.reverse ++ '.' :: before.reverse := by simp
  have hafter : ∀ c ∈ after.reverse, c ≠ '.' := fun c hc => h c (List.mem_reverse.mp hc)
  simp only [splitLastDot, hback, dropWhile_before_dot hafter, takeWhile_before_dot hafter, List.reverse_reverse]

/-- A numbered name is its stem, a dot and its number. -/
theorem splitLastDot_numbered (name : String) (n : Nat) :
    splitLastDot (numbered name n).toList = some ((stem name).toList, (toString n).toList) := by
  have htext : (numbered name n).toList = (stem name).toList ++ '.' :: (toString n).toList := by
    simp [numbered, String.toList_append]
  rw [htext, splitLastDot_append (ne_dot_of_mem_digits n)]

theorem all_isDigit_toString (n : Nat) : (toString n).toList.all Char.isDigit = true := by
  rw [Nat.toString_eq_ofList_toDigits, String.toList_ofList, List.all_eq_true]
  exact fun c hc => Nat.isDigit_of_mem_toDigits (by decide) (by decide) hc

/-- Numbering a name leaves its stem as it is. An empty stem is the exception: with nothing ahead of the dot,
the number is part of the name. -/
theorem stem_numbered {name : String} (h : stem name ≠ "") (n : Nat) : stem (numbered name n) = stem name := by
  have hchars : (stem name).toList ≠ [] := fun he => h (by rw [← String.ofList_toList (s := stem name), he])
  rw [stem, splitLastDot_numbered]
  show (if (stem name).toList ≠ [] ∧ (toString n).toList.all Char.isDigit then _ else _) = _
  rw [if_pos ⟨hchars, all_isDigit_toString n⟩, String.ofList_toList]

/-! ## Requests -/

namespace Session

/-- The names given to requests that are made one after the other. -/
def freshAll (s : Session) : List String → List String
  | [] => []
  | name :: names => (s.fresh name).1 :: (s.fresh name).2.freshAll names

/-- The request at `i` refreshes `name`: it asks for the name itself, or for what such a request was given. -/
inductive Refreshes (asked given : List String) (name : String) : Nat → Prop
  | first {i : Nat} : asked[i]? = some name → Refreshes asked given name i
  | again {i j : Nat} {x : String} : Refreshes asked given name j → given[j]? = some x → asked[i]? = some x →
      Refreshes asked given name i

/-- Requests are numbered in order. -/
theorem getElem?_freshAll (s : Session) (asked : List String) (i : Nat) :
    (s.freshAll asked)[i]? = asked[i]?.map (numbered · (s.nextName + i)) := by
  induction asked generalizing s i with
  | nil => rfl
  | cons name names ih =>
    cases i with
    | zero => rfl
    | succ i =>
      show ((s.fresh name).2.freshAll names)[i]? = names[i]?.map _
      rw [ih, show (s.fresh name).2.nextName + i = s.nextName + (i + 1) from Nat.succ_add_eq_add_succ _ _]

/-- No request is given a number from before it. -/
theorem number_of_mem_freshAll {s : Session} {asked : List String} {x : String} (h : x ∈ s.freshAll asked) :
    ∃ name n, x = numbered name n ∧ s.nextName ≤ n := by
  obtain ⟨i, hi⟩ := List.mem_iff_getElem?.mp h
  rw [getElem?_freshAll] at hi
  obtain ⟨name, -, rfl⟩ := Option.map_eq_some_iff.mp hi
  exact ⟨name, _, rfl, Nat.le_add_right _ _⟩

theorem freshAll_nodup (s : Session) (asked : List String) : (s.freshAll asked).Nodup := by
  induction asked generalizing s with
  | nil => exact .nil
  | cons name names ih =>
    refine List.nodup_cons.mpr ⟨fun h => ?_, ih _⟩
    obtain ⟨later, n, heq, hn⟩ := number_of_mem_freshAll h
    have hnumber : s.nextName = n := numbered_inj heq
    have hlater : s.nextName + 1 ≤ n := hn
    omega

/-- A name that is refreshed any number of times, with other requests in between, is its stem and one number. -/
theorem Refreshes.name {s : Session} {asked : List String} {name : String} (hname : stem name ≠ "") {i : Nat}
    (h : Refreshes asked (s.freshAll asked) name i) :
    (s.freshAll asked)[i]? = some (numbered name (s.nextName + i)) := by
  induction h with
  | first h => rw [getElem?_freshAll, h, Option.map_some]
  | again _ hgiven hasked ih =>
    cases ih.symm.trans hgiven
    rw [getElem?_freshAll, hasked, Option.map_some, numbered, stem_numbered hname]
    rfl

/-- The names that a session gives out are all different, keep the stems of those asked for, and do not grow when
they are asked for again. -/
theorem freshAll_distinct_stable (s : Session) (asked : List String) :
    (s.freshAll asked).Nodup ∧
    (∀ (i : Nat) name, asked[i]? = some name → stem name ≠ "" →
      ∃ x, (s.freshAll asked)[i]? = some x ∧ stem x = stem name) ∧
    (∀ i name, Refreshes asked (s.freshAll asked) name i → stem name ≠ "" →
      (s.freshAll asked)[i]? = some (stem name ++ "." ++ toString (s.nextName + i))) := by
  refine ⟨s.freshAll_nodup asked, fun i name hi hname => ?_, fun i name hi hname => hi.name hname⟩
  exact ⟨_, (Refreshes.first hi).name hname, stem_numbered hname _⟩

end Session

end ArrayIR
