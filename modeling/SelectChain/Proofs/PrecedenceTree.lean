import SelectChain.Proofs.ExpressionText
import Mathlib.Tactic

/-!
# Precedence trees

The grammar of pipelines leaves the chains of an expression flat.  A precedence
tree says how they are meant: products bind tighter than sums, and operators of
one level associate to the left.  Source and target agree on this.  They differ in
the spelling of conditionals: that of the source has no end mark, so its last
branch reaches as far to the right as it can.

Behind all results is one operation.  `graft` puts a primary and an operator in
front of a tree, at the place on its left spine where precedence wants them, and
every tree of a chain arises this way.
-/

namespace SelectChain

def Arithmetic.level : Arithmetic → Nat
  | .add | .subtract => 0
  | .multiply | .modulo => 1

theorem Arithmetic.level_lt (op : Arithmetic) : op.level < 2 := by
  cases op <;> decide

namespace Grammar

inductive Tree (α : Type) where
  | leaf (atom : α)
  | group (inner : Tree α)
  | binary (op : Arithmetic) (left right : Tree α)
  | conditional (cmp : Comparison) (left right yes no : Tree α)

namespace Tree

variable {α β : Type}

/-- Whatever is not joined by an operator binds tightest. -/
def level : Tree α → Nat
  | .binary op _ _ => op.level
  | _ => 2

def isBinary : Tree α → Bool
  | .binary _ _ _ => true
  | _ => false

/-- No operator stands below a stronger one without parentheses, nor to the
right of one of its own level. -/
def Graded : Tree α → Prop
  | .leaf _ => True
  | .group inner => inner.Graded
  | .binary op left right =>
      op.level ≤ left.level ∧ op.level < right.level ∧
        left.Graded ∧ right.Graded
  | .conditional _ left right yes no =>
      left.Graded ∧ right.Graded ∧ yes.Graded ∧ no.Graded

/-- Whether the tree ends with the last branch of a conditional. -/
def endsOpen : Tree α → Bool
  | .binary _ _ right => right.endsOpen
  | .conditional _ _ _ _ _ => true
  | _ => false

/-- No operator stands behind the last branch of a conditional without belonging
to it. -/
def ElseReaches : Tree α → Prop
  | .leaf _ => True
  | .group inner => inner.ElseReaches
  | .binary _ left right =>
      left.endsOpen = false ∧ left.ElseReaches ∧ right.ElseReaches
  | .conditional _ left right yes no =>
      left.ElseReaches ∧ right.ElseReaches ∧ yes.ElseReaches ∧ no.ElseReaches

def size : Tree α → Nat
  | .leaf _ => 1
  | .group inner => inner.size + 1
  | .binary _ left right => left.size + right.size + 1
  | .conditional _ left right yes no =>
      left.size + right.size + yes.size + no.size + 1

/-- The tree without its parentheses. -/
def erase : Tree α → Tree α
  | .leaf atom => .leaf atom
  | .group inner => inner.erase
  | .binary op left right => .binary op left.erase right.erase
  | .conditional cmp left right yes no =>
      .conditional cmp left.erase right.erase yes.erase no.erase

theorem level_eq_two_iff (tree : Tree α) :
    tree.level = 2 ↔ tree.isBinary = false := by
  cases tree with
  | binary op left right => simp [level, isBinary, Nat.ne_of_lt op.level_lt]
  | leaf atom => simp [level, isBinary]
  | group inner => simp [level, isBinary]
  | conditional cmp left right yes no => simp [level, isBinary]

theorem level_binary_ne (op : Arithmetic) (left right : Tree α) :
    (Tree.binary op left right).level ≠ 2 :=
  Nat.ne_of_lt op.level_lt

/-! ## Grafting -/

/-- The tree of a chain that starts with `head` and `op` and goes on like
`tree`. -/
def graft (head : Tree α) (op : Arithmetic) : Tree α → Tree α
  | .binary next left right =>
      if next.level ≤ op.level then .binary next (graft head op left) right
      else .binary op head (.binary next left right)
  | tree => .binary op head tree

theorem graft_of_lt
    (head : Tree α) {op : Arithmetic} {tree : Tree α}
    (h : op.level < tree.level) : graft head op tree = .binary op head tree := by
  cases tree with
  | binary next left right =>
      have hnot : ¬ next.level ≤ op.level := Nat.not_le.mpr h
      rw [graft, if_neg hnot]
  | leaf atom => rfl
  | group inner => rfl
  | conditional cmp left right yes no => rfl

theorem graft_binary_of_le
    (head : Tree α) {op next : Arithmetic} (left right : Tree α)
    (h : next.level ≤ op.level) :
    graft head op (.binary next left right) =
      .binary next (graft head op left) right := by
  rw [graft, if_pos h]

/-- The two places where a graft can go. -/
theorem graft_induction
    {motive : Tree α → Prop} (op : Arithmetic)
    (below : ∀ next left right, next.level ≤ op.level → motive left →
      motive (.binary next left right))
    (here : ∀ tree : Tree α, op.level < tree.level → motive tree)
    (tree : Tree α) : motive tree := by
  induction tree with
  | binary next left right ihLeft _ =>
      by_cases hlevel : next.level ≤ op.level
      · exact below next left right hlevel ihLeft
      · exact here _ (Nat.lt_of_not_le hlevel)
  | leaf atom => exact here _ op.level_lt
  | group inner => exact here _ op.level_lt
  | conditional cmp left right yes no => exact here _ op.level_lt

section Graft

variable (head : Tree α) (op : Arithmetic) (tree : Tree α)

theorem level_graft : (graft head op tree).level = min op.level tree.level := by
  induction tree using graft_induction op with
  | below next left right hlevel _ =>
      rw [graft_binary_of_le head left right hlevel]
      simp only [level]
      omega
  | here tree hlevel =>
      rw [graft_of_lt head hlevel]
      exact (Nat.min_eq_left (Nat.le_of_lt hlevel)).symm

theorem endsOpen_graft : (graft head op tree).endsOpen = tree.endsOpen := by
  induction tree using graft_induction op with
  | below next left right hlevel _ =>
      rw [graft_binary_of_le head left right hlevel]
      rfl
  | here tree hlevel =>
      rw [graft_of_lt head hlevel]
      rfl

theorem size_graft : (graft head op tree).size = head.size + tree.size + 1 := by
  induction tree using graft_induction op with
  | below next left right hlevel ih =>
      rw [graft_binary_of_le head left right hlevel]
      simp only [size, ih]
      omega
  | here tree hlevel => rw [graft_of_lt head hlevel, size]

theorem isBinary_graft : (graft head op tree).isBinary = true := by
  induction tree using graft_induction op with
  | below next left right hlevel _ =>
      rw [graft_binary_of_le head left right hlevel]
      rfl
  | here tree hlevel =>
      rw [graft_of_lt head hlevel]
      rfl

variable {head op tree}

theorem Graded.graft
    (hlevel : head.level = 2) (hhead : head.Graded) (htree : tree.Graded) :
    (Tree.graft head op tree).Graded := by
  induction tree using graft_induction op with
  | below next left right hnext ih =>
      obtain ⟨hleft, hright, hleftGraded, hrightGraded⟩ := htree
      rw [graft_binary_of_le head left right hnext]
      refine ⟨?_, hright, ih hleftGraded, hrightGraded⟩
      rw [level_graft]
      exact Nat.le_min.mpr ⟨hnext, hleft⟩
  | here tree htight =>
      rw [graft_of_lt head htight]
      refine ⟨?_, htight, hhead, htree⟩
      rw [hlevel]
      exact Nat.le_of_lt op.level_lt

theorem ElseReaches.graft
    (hopen : head.endsOpen = false) (hhead : head.ElseReaches)
    (htree : tree.ElseReaches) : (Tree.graft head op tree).ElseReaches := by
  induction tree using graft_induction op with
  | below next left right hnext ih =>
      obtain ⟨hleft, hleftReaches, hright⟩ := htree
      rw [graft_binary_of_le head left right hnext]
      refine ⟨?_, ih hleftReaches, hright⟩
      rw [endsOpen_graft]
      exact hleft
  | here tree htight =>
      rw [graft_of_lt head htight]
      exact ⟨hopen, hhead, htree⟩

end Graft

/-- Every chain is a primary grafted onto the rest of the chain. -/
theorem Graded.exists_graft
    {tree : Tree α} (h : tree.Graded) (hbinary : tree.isBinary = true) :
    ∃ head op rest, tree = Tree.graft head op rest ∧ head.level = 2 ∧
      head.Graded ∧ rest.Graded ∧
      (tree.ElseReaches →
        head.endsOpen = false ∧ head.ElseReaches ∧ rest.ElseReaches) := by
  induction tree with
  | binary op left right ih _ =>
      obtain ⟨hleft, hright, hleftGraded, hrightGraded⟩ := h
      cases hcase : left.isBinary with
      | false =>
          have hlevel : left.level = 2 := left.level_eq_two_iff.mpr hcase
          refine ⟨left, op, right, (graft_of_lt left hright).symm, hlevel,
            hleftGraded, hrightGraded, ?_⟩
          intro hreaches
          exact hreaches
      | true =>
          obtain ⟨head, first, rest, hsplit, hlevel, hhead, hrest, hreaches⟩ :=
            ih hleftGraded hcase
          rw [hsplit, level_graft] at hleft
          have hfirst : op.level ≤ first.level :=
            (Nat.le_min.mp hleft).1
          refine ⟨head, first, .binary op rest right, ?_, hlevel, hhead,
            ⟨(Nat.le_min.mp hleft).2, hright, hrest, hrightGraded⟩, ?_⟩
          · rw [graft_binary_of_le head rest right hfirst, hsplit]
          · rintro ⟨hopen, hleftReaches, hrightReaches⟩
            obtain ⟨hheadOpen, hheadReaches, hrestReaches⟩ :=
              hreaches hleftReaches
            rw [hsplit, endsOpen_graft] at hopen
            exact ⟨hheadOpen, hheadReaches, hopen, hrestReaches,
              hrightReaches⟩
  | leaf atom => cases hbinary
  | group inner => cases hbinary
  | conditional cmp left right yes no => cases hbinary

end Tree

/-! ## Source trees -/

def Tree.sourceWords : Tree Operand → List Word
  | .leaf atom => atom.words
  | .group inner => .mark "(" :: inner.sourceWords ++ [.mark ")"]
  | .binary op left right => left.sourceWords ++ op.word :: right.sourceWords
  | .conditional cmp left right yes no =>
      .keyword "if" :: .mark "(" :: left.sourceWords ++ cmp.word ::
        right.sourceWords ++ .mark ")" :: yes.sourceWords ++
          .keyword "else" :: no.sourceWords

/-- A tree that the source can mean. -/
structure Tree.IsSource (tree : Tree Operand) : Prop where
  graded : tree.Graded
  elseReaches : tree.ElseReaches

def Expression.tree : Expression → Tree Operand
  | .operand atom => .leaf atom
  | .operandThen atom op rest => Tree.graft (.leaf atom) op rest.tree
  | .group inner => .group inner.tree
  | .groupThen inner op rest => Tree.graft (.group inner.tree) op rest.tree
  | .conditional cmp left right yes no =>
      .conditional cmp left.tree right.tree yes.tree no.tree

theorem Tree.sourceWords_graft
    (head : Tree Operand) (op : Arithmetic) (tree : Tree Operand) :
    (graft head op tree).sourceWords =
      head.sourceWords ++ op.word :: tree.sourceWords := by
  induction tree using graft_induction op with
  | below next left right hlevel ih =>
      rw [graft_binary_of_le head left right hlevel, sourceWords, ih,
        sourceWords, List.append_assoc, List.cons_append]
  | here tree hlevel => rw [graft_of_lt head hlevel, sourceWords]

theorem Expression.sourceWords_tree (expression : Expression) :
    expression.tree.sourceWords = expression.words := by
  induction expression with
  | operand atom => rfl
  | operandThen atom op rest ih =>
      rw [tree, Tree.sourceWords_graft, ih]
      rfl
  | group inner ih => rw [tree, Tree.sourceWords, ih, words]
  | groupThen inner op rest ihInner ihRest =>
      rw [tree, Tree.sourceWords_graft, ihRest, Tree.sourceWords, ihInner,
        words]
      simp
  | conditional cmp left right yes no ihLeft ihRight ihYes ihNo =>
      rw [tree, Tree.sourceWords, ihLeft, ihRight, ihYes, ihNo, words]

theorem Expression.isBinary_tree (expression : Expression) :
    expression.tree.isBinary = expression.isChain := by
  cases expression with
  | operand atom => rfl
  | operandThen atom op rest => exact Tree.isBinary_graft _ _ _
  | group inner => rfl
  | groupThen inner op rest => exact Tree.isBinary_graft _ _ _
  | conditional cmp left right yes no => rfl

theorem Expression.isSource_tree (expression : Expression) :
    expression.tree.IsSource := by
  induction expression with
  | operand atom => exact ⟨trivial, trivial⟩
  | operandThen atom op rest ih =>
      constructor
      · exact Tree.Graded.graft rfl trivial ih.graded
      · exact Tree.ElseReaches.graft rfl trivial ih.elseReaches
  | group inner ih => exact ⟨ih.graded, ih.elseReaches⟩
  | groupThen inner op rest ihInner ihRest =>
      constructor
      · exact Tree.Graded.graft rfl ihInner.graded ihRest.graded
      · exact Tree.ElseReaches.graft rfl ihInner.elseReaches
          ihRest.elseReaches
  | conditional cmp left right yes no ihLeft ihRight ihYes ihNo =>
      constructor
      · exact ⟨ihLeft.graded, ihRight.graded, ihYes.graded, ihNo.graded⟩
      · exact ⟨ihLeft.elseReaches, ihRight.elseReaches, ihYes.elseReaches,
          ihNo.elseReaches⟩

/-- Every tree that the source can mean is the tree of a derivation. -/
theorem Tree.IsSource.exists_expression
    {tree : Tree Operand} (h : tree.IsSource) :
    ∃ expression : Expression, expression.tree = tree := by
  -- A chain is cut behind its first primary, so the induction is on the size.
  induction hsize : tree.size using Nat.strong_induction_on generalizing tree with
  | _ size ih =>
      subst hsize
      cases tree with
      | leaf atom => exact ⟨.operand atom, rfl⟩
      | group inner =>
          have hinner : inner.IsSource := ⟨h.graded, h.elseReaches⟩
          obtain ⟨expression, hexpression⟩ := ih inner.size
            (by rw [Tree.size]; omega) hinner rfl
          exact ⟨.group expression, by rw [Expression.tree, hexpression]⟩
      | conditional cmp left right yes no =>
          obtain ⟨hleft, hright, hyes, hno⟩ := h.graded
          obtain ⟨hleft', hright', hyes', hno'⟩ := h.elseReaches
          obtain ⟨first, hfirst⟩ := ih left.size (by rw [Tree.size]; omega)
            ⟨hleft, hleft'⟩ rfl
          obtain ⟨second, hsecond⟩ := ih right.size
            (by rw [Tree.size]; omega) ⟨hright, hright'⟩ rfl
          obtain ⟨third, hthird⟩ := ih yes.size (by rw [Tree.size]; omega)
            ⟨hyes, hyes'⟩ rfl
          obtain ⟨fourth, hfourth⟩ := ih no.size (by rw [Tree.size]; omega)
            ⟨hno, hno'⟩ rfl
          refine ⟨.conditional cmp first second third fourth, ?_⟩
          rw [Expression.tree, hfirst, hsecond, hthird, hfourth]
      | binary op left right =>
          obtain ⟨head, first, rest, hsplit, hlevel, hhead, hrest, hreaches⟩ :=
            h.graded.exists_graft rfl
          obtain ⟨hopen, hheadReaches, hrestReaches⟩ :=
            hreaches h.elseReaches
          have hsize := Tree.size_graft head first rest
          rw [hsplit] at ih ⊢
          obtain ⟨chain, hchain⟩ := ih rest.size (by omega)
            ⟨hrest, hrestReaches⟩ rfl
          cases head with
          | leaf atom =>
              exact ⟨.operandThen atom first chain, by
                rw [Expression.tree, hchain]⟩
          | group inner =>
              have hinner : inner.IsSource := ⟨hhead, hheadReaches⟩
              rw [Tree.size] at hsize
              obtain ⟨expression, hexpression⟩ := ih inner.size (by omega)
                hinner rfl
              exact ⟨.groupThen expression first chain, by
                rw [Expression.tree, hexpression, hchain]⟩
          | binary op left right =>
              exact absurd hlevel (Tree.level_binary_ne op left right)
          | conditional cmp left right yes no => cases hopen

/-! ## Target trees -/

/-- What a column expression is made of. -/
inductive Column where
  | number (digits : Numeral)
  | column (name : Name)

def Column.word : Column → Word
  | .number digits => digits.word
  | .column name => name.word

def Tree.targetWords : Tree Column → List Word
  | .leaf atom => [atom.word]
  | .group inner => .mark "(" :: inner.targetWords ++ [.mark ")"]
  | .binary op left right => left.targetWords ++ op.word :: right.targetWords
  | .conditional cmp left right yes no =>
      .keyword "if" :: .mark "(" :: left.targetWords ++ cmp.word ::
        right.targetWords ++ .mark "," :: yes.targetWords ++
          .mark "," :: no.targetWords ++ [.mark ")"]

theorem Tree.targetWords_graft
    (head : Tree Column) (op : Arithmetic) (tree : Tree Column) :
    (graft head op tree).targetWords =
      head.targetWords ++ op.word :: tree.targetWords := by
  induction tree using graft_induction op with
  | below next left right hlevel ih =>
      rw [graft_binary_of_le head left right hlevel, targetWords, ih,
        targetWords, List.append_assoc, List.cons_append]
  | here tree hlevel => rw [graft_of_lt head hlevel, targetWords]

theorem Column.word_injective {first second : Column}
    (h : first.word = second.word) : first = second := by
  have hkind := congrArg Word.kind h
  have htext := congrArg Word.text h
  cases first with
  | number digits =>
      cases second with
      | number others =>
          cases digits
          cases others
          cases htext
          rfl
      | column name => cases hkind
  | column name =>
      cases second with
      | number digits => cases hkind
      | column other =>
          cases name
          cases other
          cases htext
          rfl

theorem Column.word_kind (column : Column) :
    column.word.kind = .number ∨ column.word.kind = .identifier := by
  cases column with
  | number digits => exact Or.inl rfl
  | column name => exact Or.inr rfl

theorem Column.word_ne
    (column : Column) {word : Word} (hnumber : word.kind ≠ .number)
    (hidentifier : word.kind ≠ .identifier) : column.word ≠ word := by
  rintro rfl
  rcases column.word_kind with hkind | hkind
  · exact hnumber hkind
  · exact hidentifier hkind

theorem Arithmetic.word_injective {first second : Arithmetic}
    (h : first.word = second.word) : first = second := by
  have hsame := congrArg Word.arithmetic? h
  simpa using hsame

theorem Comparison.word_injective {first second : Comparison}
    (h : first.word = second.word) : first = second := by
  have hsame := congrArg Word.comparison? h
  simpa using hsame

namespace Tree

/-- No other graded tree has the same words, nor words that these begin. -/
def Determined (tree : Tree Column) : Prop :=
  ∀ ⦃other : Tree Column⦄ ⦃rest rest' : List Word⦄, other.Graded →
    startsArithmetic rest = false → startsArithmetic rest' = false →
    tree.targetWords ++ rest = other.targetWords ++ rest' →
    tree = other ∧ rest = rest'

/-- The same for primaries, whatever follows them. -/
def HeadDetermined (tree : Tree Column) : Prop :=
  ∀ ⦃other : Tree Column⦄ ⦃rest rest' : List Word⦄, other.Graded →
    other.level = 2 → tree.targetWords ++ rest = other.targetWords ++ rest' →
    tree = other ∧ rest = rest'

theorem headDetermined_leaf (atom : Column) :
    (Tree.leaf atom).HeadDetermined := by
  intro other rest rest' _ hlevel h
  cases other with
  | leaf second =>
      obtain ⟨hword, htail⟩ := List.cons.inj h
      exact ⟨by rw [Column.word_injective hword], htail⟩
  | group inner =>
      have hword := (List.cons.inj h).1
      exact absurd hword (atom.word_ne (by decide) (by decide))
  | conditional cmp left right yes no =>
      have hword := (List.cons.inj h).1
      exact absurd hword (atom.word_ne (by decide) (by decide))
  | binary op left right =>
      exact absurd hlevel (Tree.level_binary_ne op left right)

theorem Determined.group
    {inner : Tree Column} (hinner : inner.Determined) :
    (Tree.group inner).HeadDetermined := by
  intro other rest rest' hother hlevel h
  cases other with
  | leaf atom =>
      have hword := (List.cons.inj h).1
      exact absurd hword.symm (atom.word_ne (by decide) (by decide))
  | group second =>
      have hwords : inner.targetWords ++ .mark ")" :: rest =
          second.targetWords ++ .mark ")" :: rest' := by
        simpa [targetWords] using h
      have hsecond : second.Graded := hother
      obtain ⟨rfl, hrest⟩ := hinner hsecond rfl rfl hwords
      exact ⟨rfl, (List.cons.inj hrest).2⟩
  | conditional cmp left right yes no =>
      have hword := (List.cons.inj h).1
      exact absurd hword (by decide)
  | binary op left right =>
      exact absurd hlevel (Tree.level_binary_ne op left right)

theorem Determined.conditional
    (cmp : Comparison) {left right yes no : Tree Column}
    (hleft : left.Determined) (hright : right.Determined)
    (hyes : yes.Determined) (hno : no.Determined) :
    (Tree.conditional cmp left right yes no).HeadDetermined := by
  intro other rest rest' hother hlevel h
  cases other with
  | leaf atom =>
      have hword := (List.cons.inj h).1
      exact absurd hword.symm (atom.word_ne (by decide) (by decide))
  | group inner =>
      have hword := (List.cons.inj h).1
      exact absurd hword (by decide)
  | conditional cmp' left' right' yes' no' =>
      obtain ⟨hleft', hright', hyes', hno'⟩ := hother
      have hcomparison : ∀ (cmp : Comparison) (more : List Word),
          startsArithmetic (cmp.word :: more) = false := by
        intro cmp more
        simp [startsArithmetic, comparison_arithmetic?]
      have hwords : left.targetWords ++ cmp.word :: (right.targetWords ++
            .mark "," :: (yes.targetWords ++ .mark "," ::
              (no.targetWords ++ .mark ")" :: rest))) =
          left'.targetWords ++ cmp'.word :: (right'.targetWords ++
            .mark "," :: (yes'.targetWords ++ .mark "," ::
              (no'.targetWords ++ .mark ")" :: rest'))) := by
        simpa [targetWords] using h
      obtain ⟨rfl, hcondition⟩ :=
        hleft hleft' (hcomparison _ _) (hcomparison _ _) hwords
      obtain ⟨hcmp, hrest⟩ := List.cons.inj hcondition
      obtain rfl := Comparison.word_injective hcmp
      obtain ⟨rfl, hfirst⟩ := hright hright' rfl rfl hrest
      obtain ⟨rfl, hsecond⟩ := hyes hyes' rfl rfl (List.cons.inj hfirst).2
      obtain ⟨rfl, hlast⟩ := hno hno' rfl rfl (List.cons.inj hsecond).2
      exact ⟨rfl, (List.cons.inj hlast).2⟩
  | binary op left right =>
      exact absurd hlevel (Tree.level_binary_ne op left right)

theorem Graded.primary_or_graft {tree : Tree α} (h : tree.Graded) :
    tree.level = 2 ∨ ∃ head op rest, tree = Tree.graft head op rest ∧
      head.level = 2 ∧ head.Graded ∧ rest.Graded := by
  cases hbinary : tree.isBinary with
  | false => exact Or.inl (tree.level_eq_two_iff.mpr hbinary)
  | true =>
      right
      obtain ⟨head, op, rest, hsplit, hlevel, hhead, hrest, -⟩ :=
        h.exists_graft hbinary
      exact ⟨head, op, rest, hsplit, hlevel, hhead, hrest⟩

theorem HeadDetermined.determined
    {tree : Tree Column} (h : tree.HeadDetermined) : tree.Determined := by
  intro other rest rest' hother hrest _ hwords
  rcases hother.primary_or_graft with
    hlevel | ⟨head, op, chain, rfl, hlevel, hhead, -⟩
  · exact h hother hlevel hwords
  · rw [targetWords_graft, List.append_assoc] at hwords
    obtain ⟨-, hlink⟩ := h hhead hlevel hwords
    rw [hlink, List.cons_append, startsArithmetic_op] at hrest
    cases hrest

theorem HeadDetermined.graft
    {head rest : Tree Column} (hhead : head.HeadDetermined)
    (hrest : rest.Determined) (op : Arithmetic) :
    (Tree.graft head op rest).Determined := by
  intro other after after' hother hafter hafter' hwords
  rw [targetWords_graft, List.append_assoc, List.cons_append] at hwords
  rcases hother.primary_or_graft with
    hlevel | ⟨head', op', rest', rfl, hlevel, hhead', hrest'⟩
  · obtain ⟨-, hlink⟩ := hhead hother hlevel hwords
    rw [← hlink, startsArithmetic_op] at hafter'
    cases hafter'
  · rw [targetWords_graft, List.append_assoc, List.cons_append] at hwords
    obtain ⟨rfl, hlink⟩ := hhead hhead' hlevel hwords
    obtain ⟨hop, hchain⟩ := List.cons.inj hlink
    obtain rfl := Arithmetic.word_injective hop
    obtain ⟨rfl, hlast⟩ := hrest hrest' hafter hafter' hchain
    exact ⟨rfl, hlast⟩

theorem Graded.determined {tree : Tree Column} (h : tree.Graded) :
    tree.Determined := by
  induction hsize : tree.size using Nat.strong_induction_on generalizing tree with
  | _ size ih =>
      subst hsize
      have hprimary : ∀ head : Tree Column, head.level = 2 → head.Graded →
          head.size ≤ tree.size → head.HeadDetermined := by
        intro head hlevel hhead hle
        cases head with
        | leaf atom => exact headDetermined_leaf atom
        | group inner =>
            rw [size] at hle
            have hinner : inner.Graded := hhead
            exact (ih inner.size (by omega) hinner rfl).group
        | conditional cmp left right yes no =>
            rw [size] at hle
            obtain ⟨hleft, hright, hyes, hno⟩ := hhead
            exact (ih left.size (by omega) hleft rfl).conditional cmp
              (ih right.size (by omega) hright rfl)
              (ih yes.size (by omega) hyes rfl)
              (ih no.size (by omega) hno rfl)
        | binary op left right =>
            exact absurd hlevel (Tree.level_binary_ne op left right)
      rcases h.primary_or_graft with
        hlevel | ⟨head, op, rest, rfl, hlevel, hhead, hrest⟩
      · exact (hprimary tree hlevel h (Nat.le_refl _)).determined
      · have hsize := size_graft head op rest
        exact (hprimary head hlevel hhead (by omega)).graft
          (ih rest.size (by omega) hrest rfl) op

/-- The target grammar is unambiguous. -/
theorem Graded.eq_of_targetWords
    {first second : Tree Column} (hfirst : first.Graded)
    (hsecond : second.Graded) (h : first.targetWords = second.targetWords) :
    first = second := by
  have hwords : first.targetWords ++ [] = second.targetWords ++ [] := by
    rw [h]
  exact (hfirst.determined hsecond rfl rfl hwords).1

end Tree

end Grammar

end SelectChain
