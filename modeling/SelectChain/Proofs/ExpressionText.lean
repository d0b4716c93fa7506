import SelectChain.Proofs.ExpressionReading
import Mathlib.Tactic

/-!
# The text of an expression

Both sinks write the same text.  `Expression.feed_direct` says so of the sink
that writes columns, and `Expression.collect_unwind` of the one that collects a
stack, together with the flag that the unwinding returns: it tells a chain from a
lone primary.  They differ in the fault that they report.  Writing stops at the
first faulty operand, while unwinding comes from the right and stops at the last
one.
-/

namespace SelectChain

namespace Grammar

/-- The verdict of a scope on one operand. -/
def Operand.check (scope : Scope) : Operand → Except ScopeError Unit
  | .number _ => .ok ()
  | .bare name => (scope.resolve name.text false).map fun _ => ()
  | .access qualifier _ => scope.requireParameter qualifier.text
  | .numberAccess digits field =>
      .error (.numericField (digits.text ++ "." ++ field.text))

/-- The part of the verdict that needs no scope. -/
def Operand.checkNumber : Operand → Except ScopeError Unit
  | .numberAccess digits field =>
      .error (.numericField (digits.text ++ "." ++ field.text))
  | _ => .ok ()

/-- The text of an operand that passes its check; `joined` says whether an
arithmetic operator stands beside it. -/
def Operand.text (scope : Scope) (joined : Bool) : Operand → String
  | .number digits => digits.text
  | .bare name =>
      match scope.lookup? name.text with
      | some .parameter => Scope.parameterColumn
      | some (.value fragment) => fragment.spliced joined
      | none => ""
  | .access _ field => field.text
  | .numberAccess _ _ => ""

namespace Expression

/-- The operands are checked from left to right. -/
def check (scope : Scope) (expression : Expression) :
    Except ScopeError Unit :=
  expression.operands.forM (Operand.check scope)

/-- The operands are checked from right to left. -/
def checkBack (scope : Scope) (expression : Expression) :
    Except ScopeError Unit :=
  expression.operands.reverse.forM (Operand.check scope)

def checkNumbers (expression : Expression) : Except ScopeError Unit :=
  expression.operands.forM Operand.checkNumber

def text (scope : Scope) (joined : Bool) : Expression → String
  | .operand atom => atom.text scope joined
  | .operandThen atom op rest =>
      atom.text scope true ++ (" " ++ op.symbol ++ " ") ++
        rest.text scope true
  | .group inner => "(" ++ inner.text scope false ++ ")"
  | .groupThen inner op rest =>
      "(" ++ inner.text scope false ++ ")" ++ (" " ++ op.symbol ++ " ") ++
        rest.text scope true
  | .conditional cmp left right yes no =>
      "if(" ++ left.text scope false ++ (" " ++ cmp.symbol ++ " ") ++
        right.text scope false ++ ", " ++ yes.text scope false ++ ", " ++
        no.text scope false ++ ")"

/-- A chain has an arithmetic operator outside all groups. -/
def isChain : Expression → Bool
  | .operandThen _ _ _ | .groupThen _ _ _ => true
  | .operand _ | .group _ | .conditional _ _ _ _ _ => false

/-- What a binding to the expression stands for. -/
def fragment (scope : Scope) (expression : Expression) : Fragment :=
  ⟨expression.text scope false, expression.isChain⟩

end Expression

/-! ## Writing columns -/

theorem Operand.feed_direct
    (scope : Scope) (joined : Bool) (operand : Operand) (draft : Draft) :
    operand.feed (Sink.direct scope) joined draft =
      operand.check scope >>= fun _ =>
        .ok (draft.write
          (operand.text scope (draft.afterOperator || joined))) := by
  cases operand with
  | number digits => rfl
  | bare name =>
      simp only [feed, Sink.direct, check, text, Scope.resolve]
      cases scope.lookup? name.text with
      | none => rfl
      | some binding => cases binding <;> rfl
  | access qualifier field =>
      simp only [feed, Sink.direct, check, text, Scope.requireParameter]
      cases scope.lookup? qualifier.text with
      | none => rfl
      | some binding => cases binding <;> rfl
  | numberAccess digits field => rfl

@[simp] theorem Draft.write_write (draft : Draft) (first second : String) :
    (draft.write first).write second = draft.write (first ++ second) := by
  simp [Draft.write, Projection.push, String.append_assoc]

theorem Sink.direct_entry
    (scope : Scope) (entry : Entry) (draft : Draft) :
    (Sink.direct scope).entry entry draft =
      ⟨(draft.write entry.verbatim).projection, entry.isArithmetic⟩ :=
  rfl

theorem Draft.write_mk (draft : Draft) (first second : String) (flag : Bool) :
    (⟨(draft.write first).projection, flag⟩ : Draft).write second =
      draft.write (first ++ second) := by
  rw [← Draft.write_write]
  rfl

theorem ok_bind {α β : Type} (value : α) (next : α → Except ScopeError β) :
    (Except.ok value >>= next) = next value :=
  rfl

section Checks

variable (scope : Scope)

theorem Expression.check_operand (atom : Operand) :
    (Expression.operand atom).check scope = atom.check scope := by
  simp [check, operands]

theorem Expression.check_operandThen
    (atom : Operand) (op : Arithmetic) (rest : Expression) :
    (Expression.operandThen atom op rest).check scope =
      atom.check scope >>= fun _ => rest.check scope := by
  simp [check, operands]

theorem Expression.check_groupThen
    (inner : Expression) (op : Arithmetic) (rest : Expression) :
    (Expression.groupThen inner op rest).check scope =
      inner.check scope >>= fun _ => rest.check scope := by
  simp [check, operands]

theorem Expression.check_conditional
    (cmp : Comparison) (left right yes no : Expression) :
    (Expression.conditional cmp left right yes no).check scope = (do
      left.check scope
      right.check scope
      yes.check scope
      no.check scope) := by
  simp [check, operands]

end Checks

theorem Expression.feed_direct
    (scope : Scope) (expression : Expression) (draft : Draft) :
    expression.feed (Sink.direct scope) draft =
      expression.check scope >>= fun _ =>
        .ok (draft.write (expression.text scope draft.afterOperator)) := by
  induction expression generalizing draft with
  | operand atom =>
      rw [feed, check_operand, Operand.feed_direct, Bool.or_false]
      rfl
  | operandThen atom op rest ih =>
      simp only [feed, check_operandThen, Operand.feed_direct, ih, ok_bind,
        bind_assoc, Sink.direct_entry, Draft.write_mk, Draft.write_write,
        Bool.or_true, Entry.isArithmetic, Operator.isArithmetic,
        Entry.verbatim, Operator.symbol, text, String.append_assoc]
  | group inner ih =>
      simp only [feed, ih, ok_bind, bind_assoc, Sink.direct_entry,
        Draft.write_mk, Draft.write_write, Entry.isArithmetic,
        Entry.verbatim, text]
      rfl
  | groupThen inner op rest ihInner ihRest =>
      simp only [feed, check_groupThen, ihInner, ihRest, ok_bind, bind_assoc,
        Sink.direct_entry, Draft.write_mk, Draft.write_write,
        Entry.isArithmetic, Operator.isArithmetic, Entry.verbatim,
        Operator.symbol, text, String.append_assoc]
  | conditional cmp left right yes no ihLeft ihRight ihYes ihNo =>
      simp only [feed, check_conditional, ihLeft, ihRight, ihYes, ihNo,
        ok_bind, bind_assoc, Sink.direct_entry, Draft.write_mk,
        Draft.write_write, Entry.isArithmetic, Operator.isArithmetic,
        Entry.verbatim, Operator.symbol, text, String.append_assoc]
      rfl

/-! ## Collecting and unwinding -/

def Operand.entries : Operand → List Entry
  | .number digits => [.number digits.text]
  | .bare name => [.identifier name.text]
  | .access qualifier field =>
      [.identifier qualifier.text, .dot, .identifier field.text]
  | .numberAccess digits field =>
      [.number digits.text, .dot, .identifier field.text]

def Expression.entries : Expression → List Entry
  | .operand atom => atom.entries
  | .operandThen atom op rest =>
      atom.entries ++ .operator (.arithmetic op) :: rest.entries
  | .group inner => .opening :: inner.entries ++ [.closing]
  | .groupThen inner op rest =>
      .opening :: inner.entries ++
        .closing :: .operator (.arithmetic op) :: rest.entries
  | .conditional cmp left right yes no =>
      .ifOpen :: left.entries ++ .operator (.comparison cmp) ::
        right.entries ++ .thenMark :: yes.entries ++ .elseMark ::
          no.entries ++ [.ifClose]

theorem Operand.feed_collecting
    (operand : Operand) (joined : Bool) (stack : Stack) :
    operand.feed Sink.collecting joined stack =
      operand.checkNumber >>= fun _ =>
        .ok (operand.entries.reverse ++ stack) := by
  cases operand <;> rfl

theorem Sink.collecting_entry (entry : Entry) (stack : Stack) :
    Sink.collecting.entry entry stack = entry :: stack :=
  rfl

theorem Expression.feed_collecting
    (expression : Expression) (stack : Stack) :
    expression.feed Sink.collecting stack =
      expression.checkNumbers >>= fun _ =>
        .ok (expression.entries.reverse ++ stack) := by
  induction expression generalizing stack with
  | operand atom =>
      simp [feed, checkNumbers, operands, entries, Operand.feed_collecting]
  | operandThen atom op rest ih =>
      simp [feed, checkNumbers, operands, entries, Operand.feed_collecting,
        ih, ok_bind, Sink.collecting_entry]
  | group inner ih =>
      simp [feed, checkNumbers, operands, entries, ih, ok_bind,
        Sink.collecting_entry]
  | groupThen inner op rest ihInner ihRest =>
      simp [feed, checkNumbers, operands, entries, ihInner, ihRest, ok_bind,
        Sink.collecting_entry]
  | conditional cmp left right yes no ihLeft ihRight ihYes ihNo =>
      simp [feed, checkNumbers, operands, entries, ihLeft, ihRight, ihYes,
        ihNo, ok_bind, Sink.collecting_entry]

section Checks

variable {α : Type} {f : α → Except ScopeError Unit} {list : List α}

theorem forM_eq_ok_iff :
    list.forM f = .ok () ↔ ∀ element ∈ list, f element = .ok () := by
  induction list with
  | nil => simp [pure, Except.pure]
  | cons element rest ih =>
      cases h : f element with
      | error error => simp [h, bind, Except.bind]
      | ok _ => simpa [h, ok_bind] using ih

theorem exists_of_forM_eq_error {error : ScopeError}
    (h : list.forM f = .error error) :
    ∃ element ∈ list, f element = .error error := by
  induction list with
  | nil => simp [pure, Except.pure] at h
  | cons element rest ih =>
      cases helement : f element with
      | error other =>
          have heq : other = error := by
            simpa [helement, bind, Except.bind] using h
          exact ⟨element, by simp, heq ▸ helement⟩
      | ok _ =>
          obtain ⟨found, hmem, hfound⟩ := ih (by
            simpa [helement, ok_bind] using h)
          exact ⟨found, by simp [hmem], hfound⟩

end Checks

theorem Operand.unwindOnto_entries
    (scope : Scope) {operand : Operand} (hnumber : operand.checkNumber = .ok ())
    {right : Option Entry} (hright : right ≠ some .dot) (depth : Nat)
    (done : Fragment) {below : Stack} (hbelow : below.head? ≠ some .dot) :
    (Stack.unwindOnto scope right depth done
        (operand.entries.reverse ++ below)).1 =
      operand.check scope >>= fun _ =>
        (Stack.unwindOnto scope operand.entries.head? depth
          ⟨operand.text scope (Entry.joins below.head? || Entry.joins right) ++
              done.text,
            done.compound⟩
          below).1 := by
  cases operand with
  | number digits =>
      simp [entries, Stack.unwindOnto, Entry.piece, Entry.verbatim, check,
        text, ok_bind, Entry.depthLeft, Entry.isArithmetic]
  | bare name =>
      simp only [entries, List.reverse_singleton, List.singleton_append,
        Stack.unwindOnto, Entry.piece, hright, hbelow, if_false, check, text,
        Scope.resolve, List.head?_cons]
      cases scope.lookup? name.text with
      | none => rfl
      | some binding =>
          cases binding <;>
            simp [Except.map, ok_bind, Entry.depthLeft, Entry.isArithmetic]
  | access qualifier field =>
      simp only [entries, List.reverse_cons, List.reverse_nil, List.nil_append,
        List.cons_append, Stack.unwindOnto, Entry.piece, List.head?_cons,
        if_true, hbelow, if_false, check, text, Scope.requireParameter,
        Entry.depthLeft, Entry.isArithmetic]
      cases scope.lookup? qualifier.text with
      | none => rfl
      | some binding =>
          cases binding <;> simp [Except.map, ok_bind]
          rfl
  | numberAccess digits field => cases hnumber

/-- An entry that is neither an identifier nor a dot is copied, whatever stands
beside it. -/
theorem unwindOnto_verbatim
    (scope : Scope) (entry : Entry) (right : Option Entry) (depth : Nat)
    (done : Fragment) (below : Stack)
    (hpiece : ∀ left right, entry.piece scope left right = .ok entry.verbatim) :
    (Stack.unwindOnto scope right depth done (entry :: below)).1 =
      (Stack.unwindOnto scope (some entry) (entry.depthLeft depth)
        ⟨entry.verbatim ++ done.text,
          done.compound || (depth == 0 && entry.isArithmetic)⟩
        below).1 := by
  rw [Stack.unwindOnto, hpiece]

section ChecksBack

variable (scope : Scope)

theorem Expression.checkBack_operand (atom : Operand) :
    (Expression.operand atom).checkBack scope = atom.check scope := by
  simp [checkBack, operands]

theorem Expression.checkBack_operandThen
    (atom : Operand) (op : Arithmetic) (rest : Expression) :
    (Expression.operandThen atom op rest).checkBack scope =
      rest.checkBack scope >>= fun _ => atom.check scope := by
  simp [checkBack, operands]

theorem Expression.checkBack_groupThen
    (inner : Expression) (op : Arithmetic) (rest : Expression) :
    (Expression.groupThen inner op rest).checkBack scope =
      rest.checkBack scope >>= fun _ => inner.checkBack scope := by
  simp [checkBack, operands]

theorem Expression.checkBack_conditional
    (cmp : Comparison) (left right yes no : Expression) :
    (Expression.conditional cmp left right yes no).checkBack scope = (do
      no.checkBack scope
      yes.checkBack scope
      right.checkBack scope
      left.checkBack scope) := by
  simp [checkBack, operands]

end ChecksBack

/-- Unwinding the entries of an expression, in front of what is done, with the
rest of the stack below. -/
def Expression.Unwinds (scope : Scope) (expression : Expression) : Prop :=
  ∀ ⦃beside : Option Entry⦄ ⦃below : Stack⦄, beside ≠ some .dot →
    Entry.joins beside = false → below.head? ≠ some .dot →
    ∀ (depth : Nat) (done : Fragment),
      (Stack.unwindOnto scope beside depth done
          (expression.entries.reverse ++ below)).1 =
        expression.checkBack scope >>= fun _ =>
          (Stack.unwindOnto scope expression.entries.head? depth
            ⟨expression.text scope (Entry.joins below.head?) ++ done.text,
              done.compound || (depth == 0 && expression.isChain)⟩
            below).1

/-- The same with the entry in front of the expression. -/
theorem Expression.Unwinds.behind
    {scope : Scope} {expression : Expression} (h : expression.Unwinds scope)
    {entry : Entry}
    (hpiece : ∀ left right, entry.piece scope left right = .ok entry.verbatim)
    (hdot : entry ≠ .dot) {beside : Option Entry} (hbeside : beside ≠ some .dot)
    (hjoins : Entry.joins beside = false) (depth : Nat) (done : Fragment)
    (below : Stack) :
    (Stack.unwindOnto scope beside depth done
        (expression.entries.reverse ++ entry :: below)).1 =
      expression.checkBack scope >>= fun _ =>
        (Stack.unwindOnto scope (some entry) (entry.depthLeft depth)
          ⟨entry.verbatim ++
              (expression.text scope (Entry.joins (some entry)) ++ done.text),
            (done.compound || (depth == 0 && expression.isChain)) ||
              (depth == 0 && entry.isArithmetic)⟩
          below).1 := by
  rw [h hbeside hjoins (by simpa using hdot)]
  apply bind_congr
  intro _
  rw [unwindOnto_verbatim _ _ _ _ _ _ hpiece, List.head?_cons]

theorem Expression.unwinds
    (scope : Scope) {expression : Expression}
    (hnumbers : ∀ operand ∈ expression.operands,
      operand.checkNumber = .ok ()) :
    expression.Unwinds scope := by
  induction expression with
  | operand atom =>
      intro beside below hbeside hjoins hbelow depth done
      have hatom := hnumbers atom (by simp [operands])
      simpa [entries, checkBack_operand, text, isChain, hjoins] using
        Operand.unwindOnto_entries scope hatom hbeside depth done hbelow
  | operandThen atom op rest ih =>
      intro beside below hbeside hjoins hbelow depth done
      have hatom := hnumbers atom (by simp [operands])
      have hrest : rest.Unwinds scope :=
        ih fun operand hmem => hnumbers operand (by simp [operands, hmem])
      have hstack : (operandThen atom op rest).entries.reverse ++ below =
          rest.entries.reverse ++
            .operator (.arithmetic op) :: (atom.entries.reverse ++ below) := by
        simp [entries]
      have hhead : (operandThen atom op rest).entries.head? =
          atom.entries.head? := by
        cases atom <;> rfl
      rw [hstack, hrest.behind (fun _ _ => rfl) (by simp) hbeside hjoins,
        checkBack_operandThen, bind_assoc]
      apply bind_congr
      intro _
      rw [Operand.unwindOnto_entries scope hatom (by simp) _ _ hbelow, hhead]
      simp only [text, isChain, Entry.verbatim, Operator.symbol, Entry.joins,
        Entry.isArithmetic, Operator.isArithmetic, Bool.or_true,
        Entry.depthLeft, String.append_assoc]
      cases depth == 0 <;> cases rest.isChain <;> simp
  | group inner ih =>
      intro beside below hbeside hjoins hbelow depth done
      have hinner : inner.Unwinds scope := ih hnumbers
      have hstack : (group inner).entries.reverse ++ below =
          .closing :: (inner.entries.reverse ++ .opening :: below) := by
        simp [entries]
      rw [hstack, unwindOnto_verbatim _ _ _ _ _ _ (fun _ _ => rfl),
        hinner.behind (fun _ _ => rfl) (by simp) (by simp) rfl]
      apply bind_congr
      intro _
      simp [text, isChain, Entry.verbatim, Entry.joins, Entry.isArithmetic,
        Entry.depthLeft, String.append_assoc, entries]
  | groupThen inner op rest ihInner ihRest =>
      intro beside below hbeside hjoins hbelow depth done
      have hinner : inner.Unwinds scope :=
        ihInner fun operand hmem => hnumbers operand (by simp [operands, hmem])
      have hrest : rest.Unwinds scope :=
        ihRest fun operand hmem => hnumbers operand (by simp [operands, hmem])
      have hstack : (groupThen inner op rest).entries.reverse ++ below =
          rest.entries.reverse ++ .operator (.arithmetic op) :: .closing ::
            (inner.entries.reverse ++ .opening :: below) := by
        simp [entries]
      rw [hstack, hrest.behind (fun _ _ => rfl) (by simp) hbeside hjoins,
        checkBack_groupThen, bind_assoc]
      apply bind_congr
      intro _
      rw [unwindOnto_verbatim _ _ _ _ _ _ (fun _ _ => rfl),
        hinner.behind (fun _ _ => rfl) (by simp) (by simp) rfl]
      apply bind_congr
      intro _
      simp only [text, isChain, entries, Entry.verbatim, Operator.symbol,
        Entry.joins, Entry.isArithmetic, Operator.isArithmetic,
        List.cons_append, List.head?_cons, Entry.depthLeft,
        String.append_assoc, Nat.add_sub_cancel]
      cases depth == 0 <;> cases rest.isChain <;> simp
  | conditional cmp left right yes no ihLeft ihRight ihYes ihNo =>
      intro beside below hbeside hjoins hbelow depth done
      have hleft : left.Unwinds scope :=
        ihLeft fun operand hmem => hnumbers operand (by simp [operands, hmem])
      have hright : right.Unwinds scope :=
        ihRight fun operand hmem => hnumbers operand (by simp [operands, hmem])
      have hyes : yes.Unwinds scope :=
        ihYes fun operand hmem => hnumbers operand (by simp [operands, hmem])
      have hno : no.Unwinds scope :=
        ihNo fun operand hmem => hnumbers operand (by simp [operands, hmem])
      have hstack :
          (conditional cmp left right yes no).entries.reverse ++ below =
          .ifClose :: (no.entries.reverse ++ .elseMark ::
            (yes.entries.reverse ++ .thenMark ::
              (right.entries.reverse ++ .operator (.comparison cmp) ::
                (left.entries.reverse ++ .ifOpen :: below)))) := by
        simp [entries]
      rw [hstack, unwindOnto_verbatim _ _ _ _ _ _ (fun _ _ => rfl),
        hno.behind (fun _ _ => rfl) (by simp) (by simp) rfl,
        checkBack_conditional]
      simp only [bind_assoc]
      apply bind_congr
      intro _
      rw [hyes.behind (fun _ _ => rfl) (by simp) (by simp) rfl]
      apply bind_congr
      intro _
      rw [hright.behind (fun _ _ => rfl) (by simp) (by simp) rfl]
      apply bind_congr
      intro _
      rw [hleft.behind (fun _ _ => rfl) (by simp) (by simp) rfl]
      apply bind_congr
      intro _
      simp [text, isChain, entries, Entry.verbatim, Operator.symbol,
        Entry.joins, Entry.isArithmetic, Operator.isArithmetic,
        Entry.depthLeft, String.append_assoc]

/-- A binding to an expression: its numbers are checked while it is read, its
names when it is unwound. -/
theorem Expression.collect_unwind (scope : Scope) (expression : Expression) :
    (expression.feed Sink.collecting [] >>= fun stack =>
        (stack.unwind scope).1) =
      expression.checkNumbers >>= fun _ =>
        expression.checkBack scope >>= fun _ =>
          .ok (expression.fragment scope) := by
  rw [feed_collecting, bind_assoc]
  cases hnumbers : expression.checkNumbers with
  | error error => rfl
  | ok _ =>
      have hall := forM_eq_ok_iff.mp hnumbers
      rw [ok_bind, ok_bind, ok_bind, Stack.unwind,
        unwinds scope hall (by simp) rfl (by simp)]
      simp [Stack.unwindOnto, fragment, Entry.joins]

end Grammar

end SelectChain
