import Mathlib.Data.List.Perm.Basic
import Mathlib.Data.List.Nodup

/-! # Pools

A pool lends its chunks. Its stock is there from the beginning and stays; behind
it there are extra chunks, got when the stock is used up and given up together
as soon as none of them is lent.

* `Pool.Takes`, `Pool.Gives`: a chunk is lent, a chunk comes back.
* `Takes.live_perm` and the like: what the two do to the chunks of the pool.
-/

variable {β : Type*}

/-- The chunks of a pool: those of the stock, and the extra ones. -/
structure Pool (β : Type*) where
  idle : List β
  alloced : List β
  extraIdle : List β
  extraLive : List β

namespace Pool

def empty : Pool β := ⟨[], [], [], []⟩

def stock (p : Pool β) : List β := p.idle ++ p.alloced

def extra (p : Pool β) : List β := p.extraIdle ++ p.extraLive

def live (p : Pool β) : List β := p.alloced ++ p.extraLive

def all (p : Pool β) : List β := p.stock ++ p.extra

/-- The pool gets extra chunks. -/
def grow (p : Pool β) (new : List β) : Pool β := { p with extraIdle := new ++ p.extraIdle }

theorem grow_all_perm (p : Pool β) (new : List β) : (p.grow new).all.Perm (new ++ p.all) := by
  show (p.stock ++ (new ++ p.extraIdle ++ p.extraLive)).Perm (new ++ (p.stock ++ p.extra))
  rw [List.append_assoc]
  exact List.perm_append_comm_assoc _ _ _

/-- No extra chunk is kept unless one of them is lent. -/
def Settled (p : Pool β) : Prop := p.extraLive = [] → p.extraIdle = []

theorem live_sublist (p : Pool β) : p.live.Sublist p.all :=
  (List.sublist_append_right _ _).append (List.sublist_append_right _ _)

/-- A lent chunk that is an extra one. -/
theorem mem_extraLive {p : Pool β} {x : β} (h : p.all.Nodup) (hlive : x ∈ p.live)
    (hextra : x ∈ p.extra) : x ∈ p.extraLive := by
  rcases List.mem_append.mp hlive with halloced | hmem
  · exact absurd rfl ((List.nodup_append.mp h).2.2 x (List.mem_append_right _ halloced) x hextra)
  · exact hmem

/-- The pool lends `x`, after it has got the extra chunks `new`. -/
inductive Takes (p : Pool β) : List β → β → Pool β → Prop where
  | stock {x : β} {idle : List β} (h : p.idle = x :: idle) :
      Takes p [] x { p with idle := idle, alloced := x :: p.alloced }
  | extra {new : List β} {x : β} {rest : List β} (hidle : p.idle = [])
      (h : new ++ p.extraIdle = x :: rest) :
      Takes p new x { p with extraIdle := rest, extraLive := p.extraLive ++ [x] }

variable {p p' : Pool β} {x : β} {new gone : List β}

theorem Takes.live_perm (h : Takes p new x p') : p'.live.Perm (x :: p.live) := by
  cases h with
  | stock h => exact List.Perm.refl _
  | extra hidle h =>
      show (p.alloced ++ (p.extraLive ++ [x])).Perm (x :: (p.alloced ++ p.extraLive))
      rw [← List.append_assoc]
      exact List.perm_append_singleton x _

theorem Takes.stock_perm (h : Takes p new x p') : p'.stock.Perm p.stock := by
  cases h with
  | stock h =>
      unfold Pool.stock
      rw [h]
      exact List.perm_middle
  | extra hidle h => exact List.Perm.refl _

theorem Takes.all_perm (h : Takes p new x p') : p'.all.Perm (new ++ p.all) := by
  cases h with
  | stock h => exact (Takes.stock (p := p) h).stock_perm.append_right _
  | @extra _ _ rest hidle h =>
      have hextra : (rest ++ (p.extraLive ++ [x])).Perm (new ++ p.extra) := by
        rw [← List.append_assoc, Pool.extra, ← List.append_assoc, h]
        exact List.perm_append_singleton x _
      exact (hextra.append_left p.stock).trans (List.perm_append_comm_assoc _ _ _)

/-- A chunk is lent from the extra ones when the stock has no idle one. -/
theorem Takes.extraLive (h : Takes p new x p') :
    (p.idle = [] → p'.extraLive = p.extraLive ++ [x]) ∧
      (p.idle ≠ [] → p'.extraLive = p.extraLive) := by
  cases h with
  | stock h =>
      refine ⟨?_, fun _ => rfl⟩
      intro hnil
      rw [hnil] at h
      simp at h
  | extra hidle h => exact ⟨fun _ => rfl, fun hne => absurd hidle hne⟩

theorem Takes.extra_length (h : Takes p new x p') :
    p'.extra.length ≤ p.extra.length + new.length := by
  cases h with
  | stock h => exact Nat.le_add_right _ _
  | extra hidle h =>
      have hlen := congrArg List.length h
      simp only [Pool.extra, List.length_append, List.length_cons, List.length_nil] at hlen ⊢
      omega

theorem Takes.settled (h : Takes p new x p') (hp : p.Settled) : p'.Settled := by
  cases h with
  | stock h => exact hp
  | extra hidle h =>
      intro hnil
      simp at hnil

variable [DecidableEq β]

/-- The chunk `x` comes back, and the pool gives up the extra chunks `gone`. -/
inductive Gives (p : Pool β) (x : β) : List β → Pool β → Prop where
  | stock (h : x ∈ p.alloced) :
      Gives p x [] { p with idle := x :: p.idle, alloced := p.alloced.erase x }
  | extra (h : x ∈ p.extraLive) (hmore : p.extraLive.erase x ≠ []) :
      Gives p x [] { p with extraIdle := x :: p.extraIdle, extraLive := p.extraLive.erase x }
  | last (h : p.extraLive = [x]) :
      Gives p x (x :: p.extraIdle) { p with extraIdle := [], extraLive := [] }

theorem Gives.live_perm (h : Gives p x gone p') : p.live.Perm (x :: p'.live) := by
  cases h with
  | stock h => exact (List.perm_cons_erase h).append_right _
  | extra h hmore => exact ((List.perm_cons_erase h).append_left _).trans List.perm_middle
  | last h =>
      show (p.alloced ++ p.extraLive).Perm (x :: (p.alloced ++ []))
      rw [h, List.append_nil]
      exact List.perm_append_singleton x p.alloced

theorem Gives.stock_perm (h : Gives p x gone p') : p'.stock.Perm p.stock := by
  cases h with
  | stock h => exact List.perm_middle.symm.trans ((List.perm_cons_erase h).symm.append_left _)
  | extra h hmore => exact List.Perm.refl _
  | last h => exact List.Perm.refl _

theorem Gives.all_perm (h : Gives p x gone p') : p.all.Perm (gone ++ p'.all) := by
  cases h with
  | stock h => exact ((Gives.stock (p := p) h).stock_perm.append_right _).symm
  | extra h hmore =>
      refine List.Perm.append_left _ ?_
      exact ((List.perm_cons_erase h).append_left _).trans List.perm_middle
  | last h =>
      apply List.perm_iff_count.mpr
      intro a
      simp only [all, Pool.stock, Pool.extra, h, List.count_append, List.count_cons, List.count_nil]
      omega

/-- An extra chunk goes in front of the others. -/
theorem extra_perm (h : x ∈ p.extraLive) :
    (x :: (p.extraIdle ++ p.extraLive.erase x)).Perm p.extra :=
  List.perm_middle.symm.trans ((List.perm_cons_erase h).symm.append_left _)

theorem Gives.extra_length (h : Gives p x gone p') : p'.extra.length ≤ p.extra.length := by
  cases h with
  | stock h => exact Nat.le_refl _
  | extra h hmore =>
      have hlen := (extra_perm h).length_eq
      simp only [Pool.extra, List.length_append, List.length_cons] at hlen ⊢
      omega
  | last h => exact Nat.zero_le _

theorem Gives.settled (h : Gives p x gone p') (hp : p.Settled) : p'.Settled := by
  cases h with
  | stock h => exact hp
  | extra h hmore =>
      intro hnil
      exact absurd hnil hmore
  | last h =>
      intro hnil
      rfl

end Pool
