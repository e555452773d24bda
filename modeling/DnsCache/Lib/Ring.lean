import Mathlib.Data.List.Nodup
import Mathlib.Logic.Function.Basic

/-! # Rings threaded through two link fields

A circular doubly linked list is seen through two functions, `next` and `prev`.
One element, the head, belongs to the ring when the list is empty too.

* `Linked next prev a l b`: from `a` through the elements of `l` to `b`.
* `Linked.append_iff`, `Linked.frame`: cutting a ring, and stores elsewhere.
* `Linked.unlink`, `Linked.link`, `Linked.splice`: one element taken out, one
  put in, and a whole row of new elements put at the end.
* `walkWhile`: the loop that looks for a place in the ring.
-/

namespace Ring

variable {ι : Type*}

/-- From `a` one meets the elements of `l` and then `b`, and the same ones on the way back. -/
def Linked (next prev : ι → ι) : ι → List ι → ι → Prop
  | a, [], b => next a = b ∧ prev b = a
  | a, x :: l, b => (next a = x ∧ prev x = a) ∧ Linked next prev x l b

/-- `while (keep (i)) i = next (i);` for at most `n` rounds. -/
def walkWhile (next : ι → ι) (keep : ι → Bool) : Nat → ι → ι
  | 0, i => i
  | n + 1, i => if keep i then walkWhile next keep n (next i) else i

variable {next prev next' prev' : ι → ι} {a b c h x : ι} {l m : List ι}

@[simp] theorem linked_nil : Linked next prev a [] b ↔ next a = b ∧ prev b = a := Iff.rfl

@[simp] theorem linked_cons :
    Linked next prev a (x :: l) b ↔ (next a = x ∧ prev x = a) ∧ Linked next prev x l b := Iff.rfl

/-- A ring can be cut at any element. -/
theorem Linked.append_iff :
    Linked next prev a (l ++ x :: m) b ↔ Linked next prev a l x ∧ Linked next prev x m b := by
  induction l generalizing a with
  | nil => simp
  | cons y l ih => simp only [List.cons_append, linked_cons, ih, and_assoc]

/-- The first element behind `a`. -/
theorem Linked.next_eq (hl : Linked next prev a l b) : next a = l.head?.getD b := by
  cases l with
  | nil => exact hl.1
  | cons x l => exact hl.1.1

/-- The last element before `b` is `a` or an element between them. -/
theorem Linked.prev_mem (hl : Linked next prev a l b) : prev b ∈ a :: l := by
  induction l generalizing a with
  | nil =>
      rw [hl.2]
      exact List.mem_cons_self
  | cons x l ih => exact List.mem_cons_of_mem _ (ih hl.2)

theorem Linked.next_mem (hl : Linked next prev a l b) : next a ∈ l ++ [b] := by
  rw [hl.next_eq]
  cases l with
  | nil => exact List.mem_cons_self
  | cons x l => exact List.mem_cons_self

/-- The neighbours of an element are on the ring. -/
theorem Linked.next_mem_of_mem (hl : Linked next prev a l b) (hx : x ∈ l) : next x ∈ l ++ [b] := by
  rcases List.append_of_mem hx with ⟨u, v, rfl⟩
  have hmem := (Linked.append_iff.mp hl).2.next_mem
  rw [List.append_assoc]
  exact List.mem_append_right _ (List.mem_cons_of_mem _ hmem)

theorem Linked.prev_mem_of_mem (hl : Linked next prev a l b) (hx : x ∈ l) : prev x ∈ a :: l := by
  rcases List.append_of_mem hx with ⟨u, v, rfl⟩
  have hmem := (Linked.append_iff.mp hl).1.prev_mem
  rcases List.mem_cons.mp hmem with heq | hu
  · rw [heq]
    exact List.mem_cons_self
  · exact List.mem_cons_of_mem _ (List.mem_append_left _ hu)

/-- Frame: a ring depends on the links of its own elements only. -/
theorem Linked.frame (hl : Linked next prev a l b) (hnext : ∀ y ∈ a :: l, next' y = next y)
    (hprev : ∀ y ∈ l ++ [b], prev' y = prev y) : Linked next' prev' a l b := by
  induction l generalizing a with
  | nil =>
      constructor
      · rw [hnext a List.mem_cons_self, hl.1]
      · rw [hprev b List.mem_cons_self, hl.2]
  | cons x l ih =>
      refine ⟨⟨?_, ?_⟩, ih hl.2 ?_ ?_⟩
      · rw [hnext a List.mem_cons_self, hl.1.1]
      · rw [hprev x List.mem_cons_self, hl.1.2]
      · intro y hy
        exact hnext y (List.mem_cons_of_mem _ hy)
      · intro y hy
        exact hprev y (List.mem_cons_of_mem _ hy)

variable [DecidableEq ι]

/-- The end of a row is bent to another element. -/
theorem Linked.retarget (hl : Linked next prev a l b) (hc : c ∉ l) (hnodup : (a :: l).Nodup) :
    Linked (Function.update next (prev b) c) (Function.update prev c (prev b)) a l c := by
  induction l generalizing a with
  | nil =>
      rw [linked_nil, hl.2]
      exact ⟨Function.update_self .., Function.update_self ..⟩
  | cons x l ih =>
      rcases List.nodup_cons.mp hnodup with ⟨ha, hnodup⟩
      refine ⟨⟨?_, ?_⟩, ih hl.2 (List.not_mem_of_not_mem_cons hc) hnodup⟩
      · rw [Function.update_of_ne, hl.1.1]
        intro heq
        rw [heq] at ha
        exact ha hl.2.prev_mem
      · rw [Function.update_of_ne, hl.1.2]
        exact (List.ne_of_not_mem_cons hc).symm

/-- `prev (x)` and `next (x)` are linked with each other: `x` is out of the ring. -/
theorem Linked.unlink (hl : Linked next prev h (l ++ x :: m) h)
    (hnodup : (h :: (l ++ x :: m)).Nodup) :
    Linked (Function.update next (prev x) (next x)) (Function.update prev (next x) (prev x))
      h (l ++ m) h := by
  rcases Linked.append_iff.mp hl with ⟨hfront, hback⟩
  have hnodup_front : (h :: l).Nodup :=
    hnodup.sublist (List.Sublist.cons_cons _ (List.sublist_append_left _ _))
  rcases List.nodup_cons.mp hnodup with ⟨hh, hnodup⟩
  cases m with
  | nil =>
      have hl' : h ∉ l := fun hmem => hh (List.mem_append_left _ hmem)
      rw [List.append_nil, show next x = h from hback.1]
      exact hfront.retarget hl' hnodup_front
  | cons y m =>
      rcases List.nodup_append.mp hnodup with ⟨-, hxym, hdisj⟩
      rcases List.nodup_cons.mp hxym with ⟨-, hym⟩
      have hy : y ∉ l := fun hmem => hdisj y hmem y (by simp) rfl
      rw [show next x = y from hback.1.1]
      refine Linked.append_iff.mpr ⟨hfront.retarget hy hnodup_front, hback.2.frame ?_ ?_⟩
      · intro z hz
        apply Function.update_of_ne
        intro heq
        -- `z` would be behind `x` and before it
        have hmem := hfront.prev_mem
        rw [← heq] at hmem
        rcases List.mem_cons.mp hmem with rfl | hzl
        · exact hh (List.mem_append_right _ (List.mem_cons_of_mem _ hz))
        · exact hdisj z hzl z (List.mem_cons_of_mem _ hz) rfl
      · intro z hz
        apply Function.update_of_ne
        rintro rfl
        rcases List.mem_append.mp hz with hzm | hzh
        · exact (List.nodup_cons.mp hym).1 hzm
        · rw [List.mem_singleton.mp hzh] at hh
          exact hh (List.mem_append_right _ (by simp))

/-- `x` is put before `q`, the first element of `m` or the head. -/
theorem Linked.link (hl : Linked next prev h (l ++ m) h) (hnodup : (x :: h :: (l ++ m)).Nodup)
    {q : ι} (hq : q = m.head?.getD h) :
    Linked (Function.update (Function.update next x q) (prev q) x)
      (Function.update (Function.update prev x (prev q)) q x) h (l ++ x :: m) h := by
  rcases List.nodup_cons.mp hnodup with ⟨hx, hnodup⟩
  rcases List.nodup_cons.mp hnodup with ⟨hh, hnodup⟩
  have hxh : x ≠ h := List.ne_of_not_mem_cons hx
  have hxlm : x ∉ l ++ m := List.not_mem_of_not_mem_cons hx
  have hxl : x ∉ l := fun hmem => hxlm (List.mem_append_left _ hmem)
  have hhl : h ∉ l := fun hmem => hh (List.mem_append_left _ hmem)
  rcases List.nodup_append.mp hnodup with ⟨hlnodup, hmnodup, hdisj⟩
  -- the two halves of the old ring
  have hfront : Linked next prev h l q := by
    cases m with
    | nil =>
        rw [hq]
        rwa [List.append_nil] at hl
    | cons y m =>
        rw [hq]
        exact (Linked.append_iff.mp hl).1
  have hqx : q ≠ x := by
    rintro rfl
    cases m with
    | nil => exact hxh hq
    | cons y m => exact hxlm (List.mem_append_right _ (by rw [hq]; simp))
  have hql : q ∉ l := by
    cases m with
    | nil =>
        rw [hq]
        exact hhl
    | cons y m =>
        intro hmem
        exact hdisj q hmem q (by rw [hq]; simp) rfl
  have hprev : prev q ∈ h :: l := hfront.prev_mem
  have hpx : prev q ≠ x := by
    intro heq
    rw [heq] at hprev
    rcases List.mem_cons.mp hprev with heq | hmem
    · exact hxh heq
    · exact hxl hmem
  refine Linked.append_iff.mpr ⟨?_, ?_⟩
  · refine (hfront.retarget hxl (List.nodup_cons.mpr ⟨hhl, hlnodup⟩)).frame ?_ ?_
    · intro y hy
      have hyx : y ≠ x := by
        rintro rfl
        rcases List.mem_cons.mp hy with heq | hmem
        · exact hxh heq
        · exact hxl hmem
      by_cases hyp : y = prev q
      · rw [hyp, Function.update_self, Function.update_self]
      · rw [Function.update_of_ne hyp, Function.update_of_ne hyp, Function.update_of_ne hyx]
    · intro y hy
      have hyq : y ≠ q := by
        rintro rfl
        rcases List.mem_append.mp hy with hmem | hmem
        · exact hql hmem
        · exact hqx (List.mem_singleton.mp hmem)
      rw [Function.update_of_ne hyq]
  · cases m with
    | nil =>
        have hqh : q = h := hq
        rw [← hqh, linked_nil, Function.update_of_ne hpx.symm, Function.update_self]
        exact ⟨rfl, Function.update_self ..⟩
    | cons y m =>
        have hqy : q = y := hq
        have hback := (Linked.append_iff.mp hl).2
        rw [← hqy] at hback hmnodup hdisj hh hxlm
        rw [← hqy]
        refine ⟨⟨?_, Function.update_self ..⟩, hback.frame ?_ ?_⟩
        · rw [Function.update_of_ne hpx.symm, Function.update_self]
        · intro z hz
          have hzp : z ≠ prev q := by
            rintro rfl
            rcases List.mem_cons.mp hprev with heq | hmem
            · rw [heq] at hz
              exact hh (List.mem_append_right _ hz)
            · exact hdisj _ hmem _ hz rfl
          have hzx : z ≠ x := by
            rintro rfl
            exact hxlm (List.mem_append_right _ hz)
          rw [Function.update_of_ne hzp, Function.update_of_ne hzx]
        · intro z hz
          have hzq : z ≠ q := by
            rintro rfl
            rcases List.mem_append.mp hz with hmem | hmem
            · exact (List.nodup_cons.mp hmnodup).1 hmem
            · rw [List.mem_singleton.mp hmem] at hh
              exact hh (List.mem_append_right _ List.mem_cons_self)
          have hzx : z ≠ x := by
            rintro rfl
            rcases List.mem_append.mp hz with hmem | hmem
            · exact hxlm (List.mem_append_right _ (List.mem_cons_of_mem _ hmem))
            · exact hxh (List.mem_singleton.mp hmem)
          rw [Function.update_of_ne hzq, Function.update_of_ne hzx]

/-- A row of new elements that leads to the head is put at the end. -/
theorem Linked.splice (hl : Linked next prev h l h) (hnodup : (h :: l).Nodup) (hx : x ∉ l)
    (hnext : ∀ y ∈ h :: l, next' y = if y = prev h then x else next y)
    (hprev : ∀ y ∈ l, prev' y = prev y) (hfirst : prev' x = prev h)
    (hnew : Linked next' prev' x m h) : Linked next' prev' h (l ++ x :: m) h := by
  refine Linked.append_iff.mpr ⟨(hl.retarget hx hnodup).frame ?_ ?_, hnew⟩
  · intro y hy
    rw [hnext y hy, Function.update_apply]
  · intro y hy
    rcases List.mem_append.mp hy with hmem | hmem
    · have hyx : y ≠ x := by
        rintro rfl
        exact hx hmem
      rw [hprev y hmem, Function.update_of_ne hyx]
    · rw [List.mem_singleton.mp hmem, hfirst, Function.update_self]

omit [DecidableEq ι]

/-- The loop passes the elements that are to be passed, and stops behind them. -/
theorem Linked.walkWhile_eq {keep : ι → Bool} (hl : Linked next prev a (l ++ m) b)
    (hkeep : ∀ y ∈ l, keep y = true) (hstop : keep (m.head?.getD b) = false) {n : Nat}
    (hn : l.length ≤ n) : walkWhile next keep n (next a) = m.head?.getD b := by
  induction l generalizing a n with
  | nil =>
      have hfirst : next a = m.head?.getD b := Linked.next_eq hl
      rw [hfirst]
      cases n with
      | zero => rfl
      | succ n => rw [walkWhile, hstop, if_neg Bool.false_ne_true]
  | cons x l ih =>
      cases n with
      | zero => simp at hn
      | succ n =>
          have hx := hkeep x List.mem_cons_self
          have hlen : l.length ≤ n := by simpa using hn
          rw [hl.1.1, walkWhile, if_pos hx]
          exact ih hl.2 (fun y hy => hkeep y (List.mem_cons_of_mem _ hy)) hlen

end Ring
