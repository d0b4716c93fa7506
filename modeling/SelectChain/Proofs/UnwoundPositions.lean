import SelectChain.Stack
import Mathlib.Tactic

/-!
# Unwinding by positions

A stack is unwound from its right end, with the entry just passed, the entry
below and the number of open groups carried along, and a fault stops the work
half way.  Read from left to right there is no order in it: each entry adds a
text that depends on its two neighbours only, and each identifier is at fault or
not by its own use.  This module describes a stack of arbitrary entries position
by position and shows that unwinding agrees with the description.

The invariant is about the first `k` entries, which are the ones still on the
stack: what has been passed is everything from position `k` on, and in a
balanced list the groups open to the right of position `k` are those that the
first `k` entries open and do not close.
-/

namespace SelectChain

/-! ## The description of one entry -/

/-- The part that an identifier plays. -/
inductive Use where
  | field
  | qualifier
  | bare
  deriving DecidableEq

/-- Behind a dot an identifier is a field; otherwise it qualifies a field if it
stands in front of a dot. -/
def Use.between (left right : Option Entry) : Use :=
  if left = some .dot then .field
  else if right = some .dot then .qualifier
  else .bare

namespace Scope

/-- The error of a name in a given part: only the parameter may qualify a field,
and only a name with a meaning may stand alone. -/
def misuse? (scope : Scope) (name : String) : Use → Option ScopeError
  | .field => none
  | .qualifier =>
      match scope.lookup? name with
      | some .parameter => none
      | some (.value _) => some (.fieldOnBinding name)
      | none => some (.undeclared name)
  | .bare =>
      match scope.lookup? name with
      | some _ => none
      | none => some (.undeclared name)

/-- The text of a name that stands alone; `joined` says whether an arithmetic
operator stands right beside it. -/
def bareText (scope : Scope) (name : String) (joined : Bool) : String :=
  match scope.lookup? name with
  | some .parameter => "_1"
  | some (.value fragment) =>
      if fragment.compound = true ∧ joined = true then
        "(" ++ fragment.text ++ ")"
      else fragment.text
  | none => ""

end Scope

namespace Entry

/-- The error of an entry between its neighbours, if it is at fault. -/
def fault? (scope : Scope) (left right : Option Entry) :
    Entry → Option ScopeError
  | .identifier name => scope.misuse? name (.between left right)
  | _ => none

/-- The text of an entry between its neighbours, if it is not at fault. -/
def rendering (scope : Scope) (left right : Option Entry) : Entry → String
  | .identifier name =>
      match Use.between left right with
      | .field => name
      | .qualifier => ""
      | .bare => scope.bareText name (joins left || joins right)
  | .dot => ""
  | entry => entry.verbatim

def opens : Entry → Bool
  | .opening | .ifOpen => true
  | _ => false

def closes : Entry → Bool
  | .closing | .ifClose => true
  | _ => false

/-- An entry has a piece exactly if it is not at fault. -/
theorem piece_eq
    (scope : Scope) (left right : Option Entry) (entry : Entry) :
    entry.piece scope left right =
      match entry.fault? scope left right with
      | some error => .error error
      | none => .ok (entry.rendering scope left right) := by
  cases entry with
  | identifier name =>
      simp only [piece, fault?, rendering]
      by_cases hleft : left = some .dot
      · simp [hleft, Use.between, Scope.misuse?]
      · by_cases hright : right = some .dot
        · simp only [hleft, hright, Use.between, if_false, if_true,
            Scope.requireParameter, Scope.misuse?]
          rcases scope.lookup? name with _ | _ | fragment <;> rfl
        · simp only [hleft, hright, Use.between, if_false, Scope.resolve,
            Scope.misuse?, Scope.bareText]
          rcases scope.lookup? name with _ | _ | fragment
          · rfl
          · rfl
          · simp [Fragment.spliced]
  | _ => rfl

end Entry

/-! ## The description of a list of entries, from left to right -/

namespace Entries

def leftOf (entries : List Entry) : Nat → Option Entry
  | 0 => none
  | i + 1 => entries[i]?

/-- The error of the entry at position `i`, if it is at fault. -/
def faultAt? (scope : Scope) (entries : List Entry) (i : Nat) :
    Option ScopeError :=
  entries[i]?.bind (Entry.fault? scope (leftOf entries i) entries[i + 1]?)

/-- The texts of the entries, each between its neighbours. -/
def pieces (scope : Scope) (entries : List Entry) : List String :=
  entries.mapIdx fun i entry =>
    entry.rendering scope (leftOf entries i) entries[i + 1]?

/-- No bracket is closed before it is opened, and all of them are closed. -/
structure Balanced (entries : List Entry) : Prop where
  opened : ∀ i, (entries.take i).countP Entry.closes ≤
    (entries.take i).countP Entry.opens
  closed : entries.countP Entry.closes = entries.countP Entry.opens

/-- At position `i` stands an arithmetic operator outside all brackets: those
opened in front of it are closed in front of it. -/
def OuterOperatorAt (entries : List Entry) (i : Nat) : Prop :=
  (∃ op, entries[i]? = some (.operator (.arithmetic op))) ∧
    Balanced (entries.take i)

instance (entries : List Entry) : Decidable (Balanced entries) :=
  decidable_of_iff
    ((∀ i < entries.length, (entries.take i).countP Entry.closes ≤
        (entries.take i).countP Entry.opens) ∧
      entries.countP Entry.closes = entries.countP Entry.opens)
    ⟨fun ⟨hopened, hclosed⟩ => {
        opened := fun i => by
          by_cases hi : i < entries.length
          · exact hopened i hi
          · rw [List.take_of_length_le (Nat.le_of_not_lt hi)]
            exact hclosed.le
        closed := hclosed },
      fun hbalanced => ⟨fun i _ => hbalanced.opened i, hbalanced.closed⟩⟩

/-! ## One step -/

section Steps

variable {entries : List Entry} {k : Nat}

theorem reverse_take_succ (hk : k < entries.length) :
    (entries.take (k + 1)).reverse =
      entries[k] :: (entries.take k).reverse := by
  rw [List.take_succ_eq_append_getElem hk, List.reverse_concat]

theorem head?_reverse_take (hk : k ≤ entries.length) :
    (entries.take k).reverse.head? = leftOf entries k := by
  cases k with
  | zero => rfl
  | succ i =>
      rw [reverse_take_succ hk, List.head?_cons, leftOf,
        List.getElem?_eq_getElem hk]

variable (scope : Scope)

theorem faultAt?_eq (hk : k < entries.length) :
    faultAt? scope entries k =
      entries[k].fault? scope (leftOf entries k) entries[k + 1]? := by
  rw [faultAt?, List.getElem?_eq_getElem hk, Option.bind_some]

theorem join_take_pieces_succ (hk : k < entries.length) :
    String.join ((pieces scope entries).take (k + 1)) =
      String.join ((pieces scope entries).take k) ++
        entries[k].rendering scope (leftOf entries k) entries[k + 1]? := by
  have hpieces : k < (pieces scope entries).length := by
    rwa [pieces, List.length_mapIdx]
  rw [List.take_succ_eq_append_getElem hpieces, String.join_append]
  simp [pieces]

/-- The entry at position `k` is the next to go when the first `k + 1` are still
on the stack. -/
theorem unwindOnto_take_succ
    (hk : k < entries.length) (depth : Nat) (done : Fragment) :
    Stack.unwindOnto scope entries[k + 1]? depth done
        (entries.take (k + 1)).reverse =
      match faultAt? scope entries k with
      | some error => (.error error, (entries.take k).reverse)
      | none =>
          Stack.unwindOnto scope entries[k]? (entries[k].depthLeft depth)
            ⟨entries[k].rendering scope (leftOf entries k) entries[k + 1]? ++
                done.text,
              done.compound || (depth == 0 && entries[k].isArithmetic)⟩
            (entries.take k).reverse := by
  rw [reverse_take_succ hk, Stack.unwindOnto, head?_reverse_take hk.le,
    Entry.piece_eq, faultAt?_eq scope hk, List.getElem?_eq_getElem hk]
  cases entries[k].fault? scope (leftOf entries k) entries[k + 1]? with
  | some error => rfl
  | none => rfl

end Steps

/-! ## Faults and texts of a whole run -/

section Runs

variable (scope : Scope) {entries : List Entry} {k : Nat}

/-- Without a fault among the first `k` entries, all of them become text. -/
theorem unwindOnto_of_clear
    (hk : k ≤ entries.length)
    (hclear : ∀ i < k, faultAt? scope entries i = none)
    (depth : Nat) (done : Fragment) :
    ∃ compound,
      Stack.unwindOnto scope entries[k]? depth done (entries.take k).reverse =
        (.ok ⟨String.join ((pieces scope entries).take k) ++ done.text,
          compound⟩, []) := by
  induction k generalizing depth done with
  | zero => exact ⟨done.compound, by simp [Stack.unwindOnto]⟩
  | succ k ih =>
      rw [unwindOnto_take_succ scope hk, hclear k (Nat.lt_succ_self k)]
      obtain ⟨compound, hrun⟩ := ih (Nat.le_of_lt hk)
        (fun i hi => hclear i (Nat.lt_succ_of_lt hi))
        (entries[k].depthLeft depth) _
      refine ⟨compound, hrun.trans ?_⟩
      rw [join_take_pieces_succ scope hk, String.append_assoc]

/-- The last fault among the first `k` entries ends the run, with the entries in
front of it left. -/
theorem unwindOnto_of_fault
    (hk : k ≤ entries.length) {i : Nat} (hi : i < k) {error : ScopeError}
    (hfault : faultAt? scope entries i = some error)
    (hlast : ∀ j < k, i < j → faultAt? scope entries j = none)
    (depth : Nat) (done : Fragment) :
    Stack.unwindOnto scope entries[k]? depth done (entries.take k).reverse =
      (.error error, (entries.take i).reverse) := by
  induction k generalizing depth done with
  | zero => omega
  | succ k ih =>
      rw [unwindOnto_take_succ scope hk]
      rcases Nat.lt_succ_iff_lt_or_eq.mp hi with hlt | rfl
      · rw [hlast k (Nat.lt_succ_self k) hlt]
        exact ih (Nat.le_of_lt hk) hlt
          (fun j hj => hlast j (Nat.lt_succ_of_lt hj)) _ _
      · rw [hfault]

end Runs

/-! ## The mark -/

section Marks

variable {entries : List Entry} {k : Nat}

/-- The number of groups that the first `k` entries open and do not close. -/
def openBefore (entries : List Entry) (k : Nat) : Nat :=
  (entries.take k).countP Entry.opens - (entries.take k).countP Entry.closes

theorem Balanced.openBefore_length (hbalanced : Balanced entries) :
    openBefore entries entries.length = 0 := by
  rw [openBefore, List.take_length, hbalanced.closed, Nat.sub_self]

theorem Balanced.depthLeft_openBefore
    (hbalanced : Balanced entries) (hk : k < entries.length) :
    entries[k].depthLeft (openBefore entries (k + 1)) =
      openBefore entries k := by
  -- These two keep the subtractions from being cut off at zero.
  have hbefore := hbalanced.opened k
  have hbehind := hbalanced.opened (k + 1)
  unfold openBefore
  rw [List.take_succ_eq_append_getElem hk] at hbehind ⊢
  simp only [List.countP_append, List.countP_singleton] at hbehind ⊢
  generalize entries[k] = entry at hbehind ⊢
  cases entry with
  | opening | ifOpen =>
      simp only [Entry.depthLeft, Entry.opens, Entry.closes, if_true,
        Bool.false_eq_true, if_false]
      omega
  | closing | ifClose =>
      simp only [Entry.depthLeft, Entry.opens, Entry.closes, if_true,
        Bool.false_eq_true, if_false] at hbehind ⊢
      omega
  | _ => simp [Entry.depthLeft, Entry.opens, Entry.closes]

theorem Balanced.take_iff (hbalanced : Balanced entries) :
    Balanced (entries.take k) ↔ openBefore entries k = 0 := by
  have hopened := hbalanced.opened k
  unfold openBefore
  constructor
  · intro hfront
    have hclosed := hfront.closed
    omega
  · intro hzero
    refine ⟨fun i => ?_, by omega⟩
    rw [List.take_take]
    exact hbalanced.opened (min i k)

theorem Balanced.outerOperatorAt_iff
    (hbalanced : Balanced entries) (hk : k < entries.length) :
    (openBefore entries (k + 1) == 0 && entries[k].isArithmetic) = true ↔
      OuterOperatorAt entries k := by
  have hdepth := hbalanced.depthLeft_openBefore hk
  rw [OuterOperatorAt, hbalanced.take_iff, ← hdepth,
    List.getElem?_eq_getElem hk]
  cases entries[k] with
  | operator op =>
      cases op with
      | arithmetic op =>
          simp [Entry.isArithmetic, Operator.isArithmetic, Entry.depthLeft]
      | comparison op => simp [Entry.isArithmetic, Operator.isArithmetic]
  | _ => simp [Entry.isArithmetic]

/-- In a balanced list, the mark tells of the operators outside all brackets. -/
theorem Balanced.compound_iff
    (hbalanced : Balanced entries) (scope : Scope) (hk : k ≤ entries.length)
    (done : Fragment) {fragment : Fragment} {left : Stack}
    (h : Stack.unwindOnto scope entries[k]? (openBefore entries k) done
      (entries.take k).reverse = (.ok fragment, left)) :
    fragment.compound = true ↔
      done.compound = true ∨ ∃ i < k, OuterOperatorAt entries i := by
  -- One step down, the depth is again that of the entries still to come.
  induction k generalizing done with
  | zero =>
      cases h
      simp
  | succ k ih =>
      rw [unwindOnto_take_succ scope hk] at h
      cases hfault : faultAt? scope entries k with
      | some error =>
          rw [hfault] at h
          cases h
      | none =>
          rw [hfault] at h
          simp only [hbalanced.depthLeft_openBefore hk] at h
          rw [ih (Nat.le_of_lt hk) _ h, Bool.or_eq_true,
            hbalanced.outerOperatorAt_iff hk, or_assoc]
          simp only [Nat.lt_succ_iff_lt_or_eq, or_and_right, exists_or,
            exists_eq_left, or_comm]

end Marks

/-! ## Whole stacks -/

section Whole

variable (scope : Scope) (entries : List Entry)

theorem unwind_reverse :
    Stack.unwind scope entries.reverse =
      Stack.unwindOnto scope entries[entries.length]? 0 ⟨"", false⟩
        (entries.take entries.length).reverse := by
  rw [List.take_length, List.getElem?_eq_none le_rfl, Stack.unwind]

variable {scope entries}

theorem lt_length_of_faultAt? {i : Nat}
    (h : faultAt? scope entries i ≠ none) : i < entries.length := by
  by_contra hi
  rw [faultAt?, List.getElem?_eq_none (Nat.le_of_not_lt hi)] at h
  exact h rfl

theorem exists_last_fault
    (h : ¬ ∀ i, faultAt? scope entries i = none) :
    ∃ i error, faultAt? scope entries i = some error ∧
      ∀ j, i < j → faultAt? scope entries j = none := by
  obtain ⟨i, hi⟩ := not_forall.mp h
  let last := Nat.findGreatest (faultAt? scope entries · ≠ none) entries.length
  have hlast : faultAt? scope entries last ≠ none :=
    Nat.findGreatest_spec
      (P := (faultAt? scope entries · ≠ none)) (lt_length_of_faultAt? hi).le hi
  obtain ⟨error, herror⟩ := Option.ne_none_iff_exists'.mp hlast
  refine ⟨last, error, herror, ?_⟩
  intro j hj
  by_contra hfault
  exact Nat.findGreatest_is_greatest hj (lt_length_of_faultAt? hfault).le hfault

theorem unwind_of_last_fault {i : Nat} {error : ScopeError}
    (hfault : faultAt? scope entries i = some error)
    (hlast : ∀ j, i < j → faultAt? scope entries j = none) :
    Stack.unwind scope entries.reverse =
      (.error error, (entries.take i).reverse) := by
  have hsome : faultAt? scope entries i ≠ none := by
    rw [hfault]
    exact Option.some_ne_none error
  rw [unwind_reverse]
  exact unwindOnto_of_fault scope le_rfl (lt_length_of_faultAt? hsome) hfault
    (fun j _ => hlast j) _ _

theorem unwind_of_clear (hclear : ∀ i, faultAt? scope entries i = none) :
    ∃ compound,
      Stack.unwind scope entries.reverse =
        (.ok ⟨String.join (pieces scope entries), compound⟩, []) := by
  obtain ⟨compound, hrun⟩ :=
    unwindOnto_of_clear scope le_rfl (fun i _ => hclear i) 0 ⟨"", false⟩
  have hpieces : (pieces scope entries).take entries.length =
      pieces scope entries :=
    List.take_of_length_le (by simp [pieces])
  rw [hpieces, String.append_empty] at hrun
  exact ⟨compound, (unwind_reverse scope entries).trans hrun⟩

theorem Balanced.unwind_compound_iff
    (hbalanced : Balanced entries) {fragment : Fragment} {left : Stack}
    (h : Stack.unwind scope entries.reverse = (.ok fragment, left)) :
    fragment.compound = true ↔ ∃ i, OuterOperatorAt entries i := by
  rw [unwind_reverse, ← hbalanced.openBefore_length] at h
  rw [hbalanced.compound_iff scope le_rfl _ h]
  constructor
  · rintro (hdone | ⟨i, -, houter⟩)
    · cases hdone
    · exact ⟨i, houter⟩
  · rintro ⟨i, houter⟩
    obtain ⟨op, hop⟩ := houter.1
    exact Or.inr ⟨i, (List.getElem?_eq_some_iff.mp hop).1, houter⟩

end Whole

/-- A stack of any entries is unwound if and only if none of its identifiers is
at fault.  Then it is empty, its text is that of the entries from left to right,
each between its neighbours, and in a balanced stack the mark says whether an
arithmetic operator stands outside all brackets.  Otherwise the error is that of
the last identifier at fault, and the entries in front of it remain. -/
theorem unwinding_neighbour_local (scope : Scope) (entries : List Entry) :
    ((Stack.unwind scope entries.reverse).1.isOk = true ↔
        ∀ i, faultAt? scope entries i = none) ∧
      ((∀ i, faultAt? scope entries i = none) →
        ∃ compound,
          Stack.unwind scope entries.reverse =
            (.ok ⟨String.join (pieces scope entries), compound⟩, []) ∧
          (Balanced entries →
            (compound = true ↔ ∃ i, OuterOperatorAt entries i))) ∧
      (¬ (∀ i, faultAt? scope entries i = none) →
        ∃ i error, faultAt? scope entries i = some error ∧
          (∀ j, i < j → faultAt? scope entries j = none) ∧
          Stack.unwind scope entries.reverse =
            (.error error, (entries.take i).reverse)) := by
  refine ⟨⟨?_, ?_⟩, ?_, ?_⟩
  · intro hok
    by_contra hsome
    obtain ⟨i, error, hfault, hlast⟩ := exists_last_fault hsome
    rw [unwind_of_last_fault hfault hlast] at hok
    cases hok
  · intro hclear
    obtain ⟨compound, hunwind⟩ := unwind_of_clear hclear
    rw [hunwind]
    rfl
  · intro hclear
    obtain ⟨compound, hunwind⟩ := unwind_of_clear hclear
    exact ⟨compound, hunwind,
      fun hbalanced => hbalanced.unwind_compound_iff hunwind⟩
  · intro hsome
    obtain ⟨i, error, hfault, hlast⟩ := exists_last_fault hsome
    exact ⟨i, error, hfault, hlast, unwind_of_last_fault hfault hlast⟩

/-- The same name as a compound value, twice in parentheses, and as a field;
then with two faults, of which the second is met first. -/
theorem nested_product_and_two_faults :
    let scope : Scope := ⟨"x", [("y", ⟨"_1 + 1", true⟩)]⟩
    let product : List Entry :=
      [.identifier "y", .operator (.arithmetic .multiply), .opening,
        .identifier "x", .dot, .identifier "y",
        .operator (.arithmetic .subtract), .identifier "y", .closing]
    let misused : List Entry :=
      [.identifier "w", .operator (.arithmetic .add), .identifier "y", .dot,
        .identifier "x"]
    ((∀ i, faultAt? scope product i = none) ∧ Balanced product ∧
      Stack.unwind scope product.reverse =
        (.ok ⟨"(_1 + 1) * (y - (_1 + 1))", true⟩, [])) ∧
    faultAt? scope misused 0 = some (.undeclared "w") ∧
      Stack.unwind scope misused.reverse =
        (.error (.fieldOnBinding "y"),
          [.operator (.arithmetic .add), .identifier "w"]) := by
  intro scope product misused
  have hclear : ∀ i, faultAt? scope product i = none := by
    have hwithin : ∀ i < product.length, faultAt? scope product i = none := by
      decide
    intro i
    by_contra hfault
    exact hfault (hwithin i (lt_length_of_faultAt? hfault))
  have hbalanced : Balanced product := by decide
  refine ⟨⟨hclear, hbalanced, ?_⟩, by decide, ?_⟩
  · obtain ⟨compound, hunwind, hmark⟩ :=
      (unwinding_neighbour_local scope product).2.1 hclear
    have houter : OuterOperatorAt product 1 := ⟨⟨.multiply, rfl⟩, by decide⟩
    have htext : String.join (pieces scope product) =
        "(_1 + 1) * (y - (_1 + 1))" := by
      decide
    rw [hunwind, htext, (hmark hbalanced).mpr ⟨1, houter⟩]
  · have hsome : ¬ ∀ i, faultAt? scope misused i = none := by
      intro hnone
      exact absurd (hnone 2) (by decide)
    obtain ⟨i, error, hfault, hlast, hunwind⟩ :=
      (unwinding_neighbour_local scope misused).2.2 hsome
    -- Position 2 is at fault and nothing behind it is.
    have hlower : ¬ i < 2 := by
      intro hi
      exact absurd (hlast 2 hi) (by decide)
    have hupper : ∀ j < misused.length, ¬ j < 2 →
        faultAt? scope misused j ≠ none → j = 2 := by
      decide
    have hsome : faultAt? scope misused i ≠ none := by
      rw [hfault]
      exact Option.some_ne_none error
    obtain rfl := hupper i (lt_length_of_faultAt? hsome) hlower hsome
    cases hfault
    exact hunwind

end Entries

end SelectChain
