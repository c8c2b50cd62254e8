import Mathlib.Logic.Function.Basic
import Ipnetx.Machine.Simulation
import Ipnetx.Model.Builder

/-! # Client Programs

    A program that uses the crate holds builders and sets in variables and
    calls the public methods in any order, on any of them.  `step` runs one
    such statement with the model's functions.

    `build` and `into_iter` take their receiver by value, so the variable is
    gone afterwards; a statement about a variable that is not bound would not
    compile and stops the run (`Stop.unbound`). -/

namespace Ipnetx

open Machine IpSetBuilder

namespace Client

/-! ## Section 1: Statements -/

/-- What a call on a builder is given; sets are passed by the name of a variable. -/
inductive Arg (A : Type) [IpAddress A] where
  | ip (ip : A)
  | range (range : IpRange A)
  | ofPrefix (p : IpPrefix A)
  | ipset (y : ℕ)

/-- The binary set operations. -/
inductive SetOp where
  | union
  | intersection
  | difference

/-- The methods that ask one set. -/
inductive Query (A : Type) [IpAddress A] where
  | containsIp (ip : A)
  | containsRange (range : IpRange A)
  | isEmpty
  | len
  | count
  | countChecked
  | ranges
  | prefixes

/-- The methods that compare two sets; `eq` is the derived `PartialEq`. -/
inductive Comparison where
  | overlapsIpSet
  | isSubsetOf
  | isSupersetOf
  | eq

/-- A statement of a client. -/
inductive Command (A : Type) [IpAddress A] where
  /-- `let mut x = IpSetBuilder::new();` or `let mut x = iter.collect();` -/
  | start (x : ℕ) (source : Source A)
  /-- `let mut x: IpSetBuilder<_> = y.into_iter().collect();` -/
  | collect (x y : ℕ)
  /-- `let mut x: IpSetBuilder<_> = y.prefixes().into_iter().collect();` -/
  | collectPrefixes (x y : ℕ)
  | add (x : ℕ) (arg : Arg A)
  | remove (x : ℕ) (arg : Arg A)
  /-- `let y = x.build();` -/
  | build (y x : ℕ)
  /-- `let z = x.clone();` -/
  | clone (z x : ℕ)
  /-- `let z = x.union(&y);` and the like. -/
  | combine (op : SetOp) (z x y : ℕ)
  /-- `let z = x.complement();` -/
  | complement (z x : ℕ)
  | ask (query : Query A) (x : ℕ)
  | compare (comparison : Comparison) (x y : ℕ)

/-- What a statement returns. -/
inductive Reply (A : Type) [IpAddress A] where
  | unit
  | bool (b : Bool)
  | size (n : ℕ)
  | count (n : BitVec 128)
  | countChecked (n : Option (BitVec 128))
  | ranges (rs : List (IpRange A))
  | prefixes (ps : List (IpPrefix A))

/-- Why a run stops. -/
inductive Stop where
  /-- A fault of the crate. -/
  | fault (f : Fault)
  /-- The program names a variable that is not bound. -/
  | unbound (x : ℕ)

/-! ## Section 2: Running a statement -/

/-- The variables of a program. -/
structure Store (A : Type) where
  builders : ℕ → Option (IpSetBuilder A)
  sets : ℕ → Option (IpSet A)

/-- The value of a variable. -/
def lookup {α : Type} (vars : ℕ → Option α) (x : ℕ) : Except Stop α :=
  match vars x with
  | some a => .ok a
  | none => .error (.unbound x)

/-- A call into the crate. -/
abbrev crate {α : Type} (x : Result α) : Except Stop α := x.mapError .fault

variable {A : Type}

namespace Store

/-- No variable is bound. -/
def empty : Store A := { builders := fun _ => none, sets := fun _ => none }

def setBuilder (s : Store A) (x : ℕ) (b : Option (IpSetBuilder A)) : Store A :=
  { s with builders := Function.update s.builders x b }

def setSet (s : Store A) (x : ℕ) (t : Option (IpSet A)) : Store A :=
  { s with sets := Function.update s.sets x t }

end Store

variable [IpAddress A]

/-- The add call with its argument. -/
def Arg.addCall (sets : ℕ → Option (IpSet A)) : Arg A → Except Stop (Call A)
  | .ip a => return .addIp a
  | .range r => return .addRange r
  | .ofPrefix p => return .addPrefix p
  | .ipset y => return .addIpset (← lookup sets y)

/-- The remove call with its argument. -/
def Arg.removeCall (sets : ℕ → Option (IpSet A)) : Arg A → Except Stop (Call A)
  | .ip a => return .removeIp a
  | .range r => return .removeRange r
  | .ofPrefix p => return .removePrefix p
  | .ipset y => return .removeIpset (← lookup sets y)

/-- The method behind a binary operation. -/
def SetOp.call : SetOp → IpSet A → IpSet A → Result (IpSet A)
  | .union => IpSet.union
  | .intersection => IpSet.intersection
  | .difference => IpSet.difference

/-- The answer to a query. -/
def Query.answer (t : IpSet A) : Query A → Result (Reply A)
  | .containsIp ip => return .bool (t.containsIp ip)
  | .containsRange range => return .bool (← t.containsRange range)
  | .isEmpty => return .bool t.isEmpty
  | .len => return .size t.len
  | .count => return .count (← t.count)
  | .countChecked => return .countChecked (← t.countChecked)
  | .ranges => return .ranges t.ranges
  | .prefixes => return .prefixes (← t.prefixes)

/-- The answer to a comparison. -/
def Comparison.answer (t u : IpSet A) : Comparison → Result Bool
  | .overlapsIpSet => t.overlapsIpSet u
  | .isSubsetOf => t.isSubsetOf u
  | .isSupersetOf => t.isSupersetOf u
  | .eq => return decide (t = u)

variable [SortUnstableByKey (IpRange A) A]

/-- One statement. -/
def step (s : Store A) : Command A → Except Stop (Store A × Reply A)
  | .start x source => do
      let b ← crate (start source)
      return (s.setBuilder x (some b), .unit)
  | .collect x y => do
      let t ← lookup s.sets y
      return ((s.setSet y none).setBuilder x (some (fromRanges t.ranges)), .unit)
  | .collectPrefixes x y => do
      let t ← lookup s.sets y
      let ps ← crate t.prefixes
      let b ← crate (fromPrefixes ps)
      return (s.setBuilder x (some b), .unit)
  | .add x arg => do
      let b ← lookup s.builders x
      let b ← crate (b.call (← arg.addCall s.sets))
      return (s.setBuilder x (some b), .unit)
  | .remove x arg => do
      let b ← lookup s.builders x
      let b ← crate (b.call (← arg.removeCall s.sets))
      return (s.setBuilder x (some b), .unit)
  | .build y x => do
      let b ← lookup s.builders x
      let t ← crate b.build
      return ((s.setBuilder x none).setSet y (some t), .unit)
  | .clone z x => do
      let t ← lookup s.sets x
      return (s.setSet z (some t), .unit)
  | .combine op z x y => do
      let t ← crate (op.call (← lookup s.sets x) (← lookup s.sets y))
      return (s.setSet z (some t), .unit)
  | .complement z x => do
      let t ← crate (← lookup s.sets x).complement
      return (s.setSet z (some t), .unit)
  | .ask query x => do
      let reply ← crate (query.answer (← lookup s.sets x))
      return (s, reply)
  | .compare comparison x y => do
      let b ← crate (comparison.answer (← lookup s.sets x) (← lookup s.sets y))
      return (s, .bool b)

end Client

end Ipnetx
