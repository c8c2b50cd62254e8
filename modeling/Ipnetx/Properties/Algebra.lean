import Ipnetx.Properties.Runs

/-! # The Boolean Algebra of IP Sets

    Expressions over the four set operations, with reachable sets as leaves.
    An expression evaluates through the code, and it has a Boolean meaning at
    every address.  Evaluation returns the representation of the meaning
    (`Expr.eval_represents`), so two expressions evaluate to equal range
    vectors exactly when their meanings agree, and every Boolean identity
    is an equality of range vectors. -/

namespace Ipnetx

open Machine

variable {A : Type} [IpAddress A] [SortUnstableByKey (IpRange A) A]

/-- An expression tree over the set operations. -/
inductive Expr (A : Type) [IpAddress A] [SortUnstableByKey (IpRange A) A] where
  | leaf (s : {s : IpSet A // Reachable s})
  | union (e f : Expr A)
  | intersection (e f : Expr A)
  | difference (e f : Expr A)
  | complement (e : Expr A)

namespace Expr

/-- Evaluation by the operations of the code. -/
def eval : Expr A → Result (IpSet A)
  | .leaf s => .ok s.val
  | .union e f => do
      let a ← e.eval
      let b ← f.eval
      a.union b
  | .intersection e f => do
      let a ← e.eval
      let b ← f.eval
      a.intersection b
  | .difference e f => do
      let a ← e.eval
      let b ← f.eval
      a.difference b
  | .complement e => do
      let a ← e.eval
      a.complement

/-- The Boolean meaning at an address: or, and, and-not, not over the leaves' membership. -/
def holds : Expr A → A → Bool
  | .leaf s, ip => s.val.containsIp ip
  | .union e f, ip => e.holds ip || f.holds ip
  | .intersection e f, ip => e.holds ip && f.holds ip
  | .difference e f, ip => e.holds ip && !f.holds ip
  | .complement e, ip => !e.holds ip

/-- The addresses at which the expression holds. -/
def addrs (e : Expr A) : Set A := {ip | e.holds ip = true}

theorem addrs_union (e f : Expr A) : (e.union f).addrs = e.addrs ∪ f.addrs := by
  apply Set.ext
  intro ip
  exact Bool.or_eq_true_iff

theorem addrs_intersection (e f : Expr A) : (e.intersection f).addrs = e.addrs ∩ f.addrs := by
  apply Set.ext
  intro ip
  exact Bool.and_eq_true_iff

theorem addrs_difference (e f : Expr A) : (e.difference f).addrs = e.addrs \ f.addrs := by
  apply Set.ext
  intro ip
  show (e.holds ip && !f.holds ip) = true ↔ e.holds ip = true ∧ ¬ f.holds ip = true
  rw [Bool.and_eq_true_iff, Bool.not_eq_true', Bool.not_eq_true]

theorem addrs_complement (e : Expr A) : e.complement.addrs = e.addrsᶜ := by
  apply Set.ext
  intro ip
  show (!e.holds ip) = true ↔ ¬ e.holds ip = true
  rw [Bool.not_eq_true', Bool.not_eq_true]

/-- Every expression evaluates, to the representation of its meaning. -/
theorem eval_represents (e : Expr A) : ∃ s, e.eval = .ok s ∧ s.Represents e.addrs := by
  induction e with
  | leaf s => exact ⟨s.val, rfl, s.property.represents⟩
  | union e f ihe ihf =>
    obtain ⟨a, ha, hea⟩ := ihe
    obtain ⟨b, hb, hfb⟩ := ihf
    rw [addrs_union, eval, ha, hb]
    exact IpSet.union_represents hea hfb
  | intersection e f ihe ihf =>
    obtain ⟨a, ha, hea⟩ := ihe
    obtain ⟨b, hb, hfb⟩ := ihf
    rw [addrs_intersection, eval, ha, hb]
    exact IpSet.intersection_represents hea hfb
  | difference e f ihe ihf =>
    obtain ⟨a, ha, hea⟩ := ihe
    obtain ⟨b, hb, hfb⟩ := ihf
    rw [addrs_difference, eval, ha, hb]
    exact IpSet.difference_represents hea hfb
  | complement e ihe =>
    obtain ⟨a, ha, hea⟩ := ihe
    rw [addrs_complement, eval, ha]
    exact IpSet.complement_represents hea

/-- Both expressions evaluate, and to the same range vector. -/
def Same (e f : Expr A) : Prop := ∃ s, e.eval = .ok s ∧ f.eval = .ok s

theorem addrs_eq_iff {e f : Expr A} : e.addrs = f.addrs ↔ ∀ ip, e.holds ip = f.holds ip := by
  constructor
  · intro h ip
    exact Bool.eq_iff_iff.mpr (Set.ext_iff.mp h ip)
  · intro h
    apply Set.ext
    intro ip
    exact Bool.eq_iff_iff.mp (h ip)

/-- Expressions with the same meaning evaluate to the same range vector. -/
theorem same_of_addrs_eq {e f : Expr A} (h : e.addrs = f.addrs) : Same e f := by
  obtain ⟨s, hs, hes⟩ := e.eval_represents
  obtain ⟨t, ht, hft⟩ := f.eval_represents
  exact ⟨s, hs, by rw [ht, hes.unique (h ▸ hft)]⟩

/-- The laws of a Boolean algebra, as equalities of range vectors. -/
structure Laws (e f g : Expr A) : Prop where
  union_comm : Same (e.union f) (f.union e)
  intersection_comm : Same (e.intersection f) (f.intersection e)
  union_assoc : Same ((e.union f).union g) (e.union (f.union g))
  intersection_assoc :
    Same ((e.intersection f).intersection g) (e.intersection (f.intersection g))
  union_distrib :
    Same (e.union (f.intersection g)) ((e.union f).intersection (e.union g))
  intersection_distrib :
    Same (e.intersection (f.union g)) ((e.intersection f).union (e.intersection g))
  union_absorb : Same (e.union (e.intersection f)) e
  intersection_absorb : Same (e.intersection (e.union f)) e
  complement_union : Same (e.union f).complement (e.complement.intersection f.complement)
  complement_intersection :
    Same (e.intersection f).complement (e.complement.union f.complement)
  complement_complement : Same e.complement.complement e
  difference_eq : Same (e.difference f) (e.intersection f.complement)

theorem laws (e f g : Expr A) : Laws e f g := by
  -- each law is the law of `Set A` on the meanings
  constructor <;> apply same_of_addrs_eq <;>
    simp only [addrs_union, addrs_intersection, addrs_difference, addrs_complement]
  · exact Set.union_comm _ _
  · exact Set.inter_comm _ _
  · exact Set.union_assoc _ _ _
  · exact Set.inter_assoc _ _ _
  · exact Set.union_inter_distrib_left _ _ _
  · exact Set.inter_union_distrib_left _ _ _
  · exact sup_inf_self
  · exact inf_sup_self
  · exact Set.compl_union _ _
  · exact Set.compl_inter _ _
  · exact compl_compl _
  · exact Set.sdiff_eq _ _

end Expr

/-- **Boolean algebra.**  Expressions evaluate to equal range vectors exactly when their
    meanings agree; equality decides extensional equality of reachable sets; the laws hold
    as equalities of range vectors. -/
theorem expr_eval_eq_iff :
    (∀ e f : Expr A, ∃ s t, e.eval = .ok s ∧ f.eval = .ok t ∧
      (s = t ↔ ∀ ip, e.holds ip = f.holds ip)) ∧
    (∀ s t : {s : IpSet A // Reachable s},
      s.val = t.val ↔ ∀ ip, s.val.containsIp ip = t.val.containsIp ip) ∧
    ∀ e f g : Expr A, e.Laws f g := by
  refine ⟨?_, ?_, Expr.laws⟩
  · intro e f
    obtain ⟨s, hs, hes⟩ := e.eval_represents
    obtain ⟨t, ht, hft⟩ := f.eval_represents
    exact ⟨s, t, hs, ht, (hes.eq_iff hft).trans Expr.addrs_eq_iff⟩
  · intro s t
    have hext := s.property.represents.eq_iff t.property.represents
    exact hext.trans (Expr.addrs_eq_iff (e := .leaf s) (f := .leaf t))

end Ipnetx
