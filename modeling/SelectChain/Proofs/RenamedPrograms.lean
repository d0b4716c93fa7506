import SelectChain.Proofs.LoweredTrees
import SelectChain.Proofs.RenamedText
import Mathlib.Tactic

/-!
# Renamed programs

A program under other names for the parameters and bindings of its bodies, and how
facts about its words are put together.  A relation between words that holds of
single words and is kept when words are joined holds of the words of a program and
those of the renamed one; `Renaming.Respells` lists what it has to hold of.
-/

namespace SelectChain

namespace Grammar

variable (naming : Renaming)

/-- An operand under other names; a field keeps its own. -/
def Operand.renamed : Operand → Operand
  | .number digits => .number digits
  | .bare name => .bare (naming.image name)
  | .access qualifier field => .access (naming.image qualifier) field
  | .numberAccess digits field => .numberAccess digits field

def Expression.renamed : Expression → Expression
  | .operand atom => .operand (atom.renamed naming)
  | .operandThen atom op rest =>
      .operandThen (atom.renamed naming) op rest.renamed
  | .group inner => .group inner.renamed
  | .groupThen inner op rest => .groupThen inner.renamed op rest.renamed
  | .conditional cmp left right yes no =>
      .conditional cmp left.renamed right.renamed yes.renamed no.renamed

def Assignment.renamed (assignment : Assignment Expression) :
    Assignment Expression :=
  ⟨naming.image assignment.name, assignment.value.renamed naming,
    assignment.semicolon⟩

def Body.renamed : Body Expression → Body Expression
  | .block assignments result =>
      .block (assignments.map (Assignment.renamed naming))
        (result.map (Expression.renamed naming))
  | .plain result => .plain (result.map (Expression.renamed naming))

def Transformation.renamed (transformation : Transformation) :
    Transformation :=
  ⟨naming.image transformation.parameter, transformation.body.renamed naming⟩

/-- The program with other names for the parameters and bindings of its
bodies. -/
def Program.renamed (program : Program) : Program :=
  { program with
    transformations :=
      program.transformations.map (Transformation.renamed naming) }

end Grammar

open Grammar

/-- A relation that can be followed from word to word through a program and the
renamed one.  A dot is taken together with the name behind it, which is not
renamed. -/
structure Renaming.Respells (naming : Renaming)
    (R : List Word → List Word → Prop) : Prop where
  nil : R [] []
  append {words words' more more' : List Word} :
    R words words' → R more more' → R (words ++ more) (words' ++ more')
  mark (text : String) :
    Lexeme.classify text.toList = some .symbol → text ≠ "." →
      R [.mark text] [.mark text]
  keyword (text : String) :
    Lexeme.classify text.toList = some .reserved →
      R [.keyword text] [.keyword text]
  name (name : Name) : R [name.word] [(naming.image name).word]
  numeral (digits : Numeral) : R [digits.word] [digits.word]
  dot (name : Name) : R [.mark ".", name.word] [.mark ".", name.word]

namespace Renaming.Respells

variable {naming : Renaming} {R : List Word → List Word → Prop}
  (h : naming.Respells R)

include h

theorem flatMap
    {α : Type} {spell spell' : α → List Word} {parts : List α}
    (hparts : ∀ part ∈ parts, R (spell part) (spell' part)) :
    R (parts.flatMap spell) (parts.flatMap spell') := by
  induction parts with
  | nil => exact h.nil
  | cons part parts ih =>
      exact h.append (hparts part (.head _))
        (ih fun other hmem => hparts other (.tail _ hmem))

theorem operand (operand : Operand) :
    R operand.words (operand.renamed naming).words := by
  cases operand with
  | number digits => exact h.numeral digits
  | bare name => exact h.name name
  | access qualifier field => exact h.append (h.name qualifier) (h.dot field)
  | numberAccess digits field =>
      exact h.append (h.numeral digits) (h.dot field)

theorem arithmetic (op : Arithmetic) : R [op.word] [op.word] := by
  cases op <;> exact h.mark _ (by decide) (by decide)

theorem comparison (op : Comparison) : R [op.word] [op.word] := by
  cases op <;> exact h.mark _ (by decide) (by decide)

theorem expression (expression : Expression) :
    R expression.words (expression.renamed naming).words := by
  have hopen : R [.mark "("] [.mark "("] := h.mark "(" (by decide) (by decide)
  have hclose : R [.mark ")"] [.mark ")"] := h.mark ")" (by decide) (by decide)
  induction expression with
  | operand atom => exact h.operand atom
  | operandThen atom op rest ih =>
      exact h.append (h.operand atom) (h.append (h.arithmetic op) ih)
  | group inner ih => exact h.append (h.append hopen ih) hclose
  | groupThen inner op rest ihInner ihRest =>
      exact h.append (h.append hopen ihInner)
        (h.append hclose (h.append (h.arithmetic op) ihRest))
  | conditional cmp left right yes no ihLeft ihRight ihYes ihNo =>
      have hif := h.append (h.keyword "if" (by decide)) hopen
      have hcondition := h.append (h.append hif ihLeft)
        (h.append (h.comparison cmp) ihRight)
      have hyes := h.append hcondition (h.append hclose ihYes)
      have hno := h.append hyes
        (h.append (h.keyword "else" (by decide)) ihNo)
      simpa [Expression.words, Expression.renamed] using hno

theorem result (result : Result Expression) :
    R (result.words Expression.words)
      ((result.map (Expression.renamed naming)).words Expression.words) := by
  cases result with
  | single only => exact h.expression only
  | tuple first more =>
      have hmore : R (moreWords Expression.words more)
          (moreWords Expression.words
            (more.map (Expression.renamed naming))) := by
        rw [moreWords, List.flatMap_map]
        exact h.flatMap fun element _ =>
          h.append (h.mark "," (by decide) (by decide)) (h.expression element)
      exact h.append (h.append (h.append (h.mark "(" (by decide) (by decide))
        (h.expression first)) hmore) (h.mark ")" (by decide) (by decide))

theorem assignment (assignment : Assignment Expression) :
    R (assignment.words Expression.words)
      ((assignment.renamed naming).words Expression.words) := by
  have hname := h.append (h.name assignment.name)
    (h.mark "=" (by decide) (by decide))
  have hvalue := h.append (h.append (h.keyword "val" (by decide)) hname)
    (h.expression assignment.value)
  unfold Assignment.words
  rw [Assignment.renamed]
  simp only
  split
  · exact h.append hvalue (h.mark ";" (by decide) (by decide))
  · exact h.append hvalue h.nil

theorem body (body : Body Expression) :
    R (body.words Expression.words)
      ((body.renamed naming).words Expression.words) := by
  cases body with
  | plain result => exact h.result result
  | block assignments result =>
      have hassignments : R (assignmentsWords Expression.words assignments)
          (assignmentsWords Expression.words
            (assignments.map (Assignment.renamed naming))) := by
        rw [assignmentsWords, List.flatMap_map]
        exact h.flatMap fun assignment _ => h.assignment assignment
      have hopen := h.append (h.mark "\x7b" (by decide) (by decide))
        hassignments
      exact h.append (h.append hopen (h.result result))
        (h.mark "\x7d" (by decide) (by decide))

theorem transformation (transformation : Transformation) :
    R transformation.words (transformation.renamed naming).words := by
  have hmap := h.append (h.dot ⟨"map", by decide⟩)
    (h.mark "(" (by decide) (by decide))
  have harrow := h.append (h.append hmap (h.name transformation.parameter))
    (h.mark "=>" (by decide) (by decide))
  exact h.append (h.append harrow (h.body transformation.body))
    (h.mark ")" (by decide) (by decide))

/-- The session in front of a program is none of its names. -/
theorem program (program : Program) :
    R program.words.tail (program.renamed naming).words.tail := by
  have hopen : R [.mark "("] [.mark "("] := h.mark "(" (by decide) (by decide)
  have hclose : R [.mark ")"] [.mark ")"] := h.mark ")" (by decide) (by decide)
  have hrange := h.append (h.dot ⟨"range", by decide⟩) hopen
  have hstop := h.append (h.mark "," (by decide) (by decide))
    (h.append (h.numeral program.stop) hclose)
  have hbounds := h.append hrange (h.append (h.numeral program.start) hstop)
  have hstages : R (program.transformations.flatMap Transformation.words)
      ((program.transformations.map (Transformation.renamed naming)).flatMap
        Transformation.words) := by
    rw [List.flatMap_map]
    exact h.flatMap fun transformation _ => h.transformation transformation
  exact h.append (h.append hbounds hstages)
    (h.append (h.dot ⟨"collect", by decide⟩) (h.append hopen hclose))

end Renaming.Respells

end SelectChain
