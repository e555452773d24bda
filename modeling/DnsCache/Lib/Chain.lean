import Mathlib.Data.List.Nodup
import Mathlib.Logic.Function.Basic

/-! # Chains threaded through next fields

A linked structure is seen through the function `next`, which maps a node to
the content of its next field (`none` for NULL) and anything else to `none`.

* `Seg next p as q`: starting at `p` one meets the nodes `as` and then `q`.
* `Seg.append_iff`, `Seg.frame`, `Seg.update`: cutting a chain, and storing to a
  next field outside or at the end of it.
* `Seg.nodup`: a chain that ends is not cyclic.
-/

namespace Chain

variable {β : Type*}

/-- Following `next` from `p` one meets exactly the nodes `as`, then `q`. -/
def Seg (next : β → Option (Option β)) : Option β → List β → Option β → Prop
  | p, [], q => p = q
  | p, a :: as, q => p = some a ∧ ∃ r, next a = some r ∧ Seg next r as q

variable {next next' : β → Option (Option β)} {p q r : Option β} {a : β} {as bs : List β}

@[simp] theorem seg_nil : Seg next p [] q ↔ p = q := Iff.rfl

@[simp] theorem seg_cons :
    Seg next p (a :: as) q ↔ p = some a ∧ ∃ r, next a = some r ∧ Seg next r as q := Iff.rfl

/-- A chain can be cut at any node. -/
theorem Seg.append_iff : Seg next p (as ++ bs) q ↔ ∃ r, Seg next p as r ∧ Seg next r bs q := by
  induction as generalizing p with
  | nil =>
      simp only [List.nil_append, seg_nil]
      constructor
      · intro h
        exact ⟨p, rfl, h⟩
      · intro h
        rcases h with ⟨r, rfl, h⟩
        exact h
  | cons a as ih =>
      simp only [List.cons_append, seg_cons, ih]
      constructor
      · intro h
        rcases h with ⟨hp, r, hr, s, hs, hrest⟩
        exact ⟨s, ⟨hp, r, hr, hs⟩, hrest⟩
      · intro h
        rcases h with ⟨s, ⟨hp, r, hr, hs⟩, hrest⟩
        exact ⟨hp, r, hr, s, hs, hrest⟩

/-- Where a chain starts. -/
theorem Seg.start_eq (h : Seg next p as none) : p = as.head? := by
  cases as with
  | nil => exact h
  | cons a as => exact h.1

/-- Frame: a chain depends on the next fields of its own nodes only. -/
theorem Seg.frame (h : Seg next p as q) (hag : ∀ a ∈ as, next' a = next a) : Seg next' p as q := by
  induction as generalizing p with
  | nil => exact h
  | cons a as ih =>
      rcases h with ⟨hp, r, hr, hrest⟩
      refine ⟨hp, r, ?_, ih hrest ?_⟩
      · rw [hag a List.mem_cons_self, hr]
      · intro b hb
        exact hag b (List.mem_cons_of_mem _ hb)

/-- A store to a next field elsewhere. -/
theorem Seg.update [DecidableEq β] (h : Seg next p as q) {v : Option (Option β)} (ha : a ∉ as) :
    Seg (Function.update next a v) p as q := by
  apply h.frame
  intro b hb
  apply Function.update_of_ne
  intro hba
  rw [hba] at hb
  exact ha hb

/-- A store to the next field of the last node. -/
theorem Seg.relink [DecidableEq β] (h : Seg next p (as ++ [a]) q) (ha : a ∉ as) (r : Option β) :
    Seg (Function.update next a (some r)) p (as ++ [a]) r := by
  rcases Seg.append_iff.mp h with ⟨s, hs, hsa, -, -, -⟩
  refine Seg.append_iff.mpr ⟨s, hs.update ha, hsa, r, ?_, rfl⟩
  rw [Function.update_self]

theorem Seg.unique (h : Seg next p as none) (h' : Seg next p bs none) : as = bs := by
  induction as generalizing p bs with
  | nil =>
      have hp : p = none := h
      cases bs with
      | nil => rfl
      | cons b bs =>
          rw [hp] at h'
          simp at h'
  | cons a as ih =>
      rcases h with ⟨hp, r, hr, hrest⟩
      cases bs with
      | nil =>
          rw [hp] at h'
          simp at h'
      | cons b bs =>
          rcases h' with ⟨hp', r', hr', hrest'⟩
          have hab : a = b := Option.some.inj (hp.symm.trans hp')
          rw [← hab, hr] at hr'
          have hrr : r = r' := Option.some.inj hr'
          rw [← hrr] at hrest'
          rw [hab, ih hrest hrest']

/-- A chain that ends in NULL meets no node twice. -/
theorem Seg.nodup (h : Seg next p as none) : as.Nodup := by
  induction as generalizing p with
  | nil => exact List.nodup_nil
  | cons a as ih =>
      rcases h with ⟨hp, r, hr, hrest⟩
      refine List.nodup_cons.mpr ⟨?_, ih hrest⟩
      intro hmem
      -- met again, the node would be followed by two chains of different lengths
      rcases List.append_of_mem hmem with ⟨xs, ys, hsplit⟩
      rw [hsplit] at hrest
      rcases Seg.append_iff.mp hrest with ⟨s, -, -, r', hr', hys⟩
      have hrr : r' = r := Option.some.inj (hr'.symm.trans hr)
      rw [hrr] at hys
      have hlen := congrArg List.length (hrest.unique hys)
      simp only [List.length_append, List.length_cons] at hlen
      omega

/-- The nodes of a chain have next fields. -/
theorem Seg.isSome (h : Seg next p as q) (ha : a ∈ as) : (next a).isSome := by
  induction as generalizing p with
  | nil => simp at ha
  | cons b as ih =>
      rcases h with ⟨-, r, hr, hrest⟩
      rcases List.mem_cons.mp ha with rfl | ha
      · rw [hr]
        rfl
      · exact ih hrest ha

end Chain
