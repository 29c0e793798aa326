/-
Rules of a grammar.

A rule says how a construct is spelled: symbols in sequence, alternatives,
repetitions. Parts of a rule may carry a level and a side, which decide
between two readings that both fit; a rank, which decides between two
readings of the same text; and a name under which their symbols are shown.

A rule without repetitions is a choice between finitely many productions:

* **`Rule.alternatives`** — the choices a rule leaves open, each made in one
  way;
* **`Rule.spelling`** — the symbols of a rule without choices, each with
  the level and side it stands under.
-/

namespace ElementLens.Grammar

/-- The side from which operators of one level are grouped. -/
inductive Side where
  | left | right
deriving DecidableEq, Repr

/-- A rule over symbols `σ`, some of them shown under a name from `κ`. -/
inductive Rule (σ κ : Type) where
  | empty
  | symbol (s : σ)
  | seq (first second : Rule σ κ)
  | alt (first second : Rule σ κ)
  | many (r : Rule σ κ)
  | level (name : Option String) (side : Option Side) (r : Rule σ κ)
  | rank (n : Int) (r : Rule σ κ)
  | shown (as : κ) (r : Rule σ κ)
deriving DecidableEq, Repr

/-- A symbol in a production, with the level and side it stands under and the
name it is shown under. -/
structure Step (σ κ : Type) where
  symbol : σ
  level : Option String
  side : Option Side
  shown : Option κ
deriving DecidableEq, Repr

/-- A sequence of symbols that spells a construct, and its rank. -/
structure Spelling (σ κ : Type) where
  steps : List (Step σ κ)
  rank : Int
deriving DecidableEq, Repr

namespace Rule

variable {σ κ : Type}

/-- Rules one after the other. -/
def seqOf : List (Rule σ κ) → Rule σ κ
  | [] => empty
  | [r] => r
  | r :: rs => seq r (seqOf rs)

/-- One of some rules. -/
def altOf : List (Rule σ κ) → Rule σ κ
  | [] => empty
  | [r] => r
  | r :: rs => alt r (altOf rs)

/-- A rule or nothing. -/
def opt (r : Rule σ κ) : Rule σ κ :=
  alt r empty

/-- One or more times a rule, with a separator between. -/
def sepBy1 (separator r : Rule σ κ) : Rule σ κ :=
  seq r (many (seq separator r))

/-- Any number of times a rule, with a separator between. -/
def sepBy (separator r : Rule σ κ) : Rule σ κ :=
  opt (sepBy1 separator r)

/-- The symbols of a rule, in order. -/
def symbols : Rule σ κ → List σ
  | empty => []
  | symbol s => [s]
  | seq a b | alt a b => symbols a ++ symbols b
  | many r | level _ _ r | rank _ r | shown _ r => symbols r

/-- A rule with every choice made, in all ways. -/
def alternatives : Rule σ κ → List (Rule σ κ)
  | empty => [empty]
  | symbol s => [symbol s]
  | seq a b => (alternatives a).flatMap fun x => (alternatives b).map (seq x)
  | alt a b => alternatives a ++ alternatives b
  | many r => [many r]
  | level name side r => (alternatives r).map (level name side)
  | rank n r => (alternatives r).map (rank n)
  | shown k r => (alternatives r).map (shown k)

/-- Of two ranks the one that weighs more. -/
def heavier (a b : Int) : Int :=
  if a.natAbs < b.natAbs then b else a

/-- Gives the last step another level and side, where they are asked for. The
steps are in reverse. -/
def restore (level : Option (Option String)) (side : Option (Option Side)) :
    List (Step σ κ) → List (Step σ κ)
  | [] => []
  | s :: rest =>
    { s with level := level.getD s.level, side := side.getD s.side } :: rest

/-- Adds the steps of a rule without choices to those in front, which are in
reverse. A level or side covers a step if the symbol behind it is covered as
well, so the last step of a covered part falls back to what surrounds it,
unless the part ends the whole rule. -/
def addSteps (atEnd : Bool) (lvl : Option String) (sd : Option Side) (name : Option κ)
    (front : List (Step σ κ)) : Rule σ κ → List (Step σ κ)
  | empty | alt _ _ | many _ => front
  | symbol s => ⟨s, lvl, sd, name⟩ :: front
  | seq a b => addSteps atEnd lvl sd name (addSteps false lvl sd name front a) b
  | rank _ r => addSteps atEnd lvl sd name front r
  | shown k r => addSteps atEnd lvl sd (some k) front r
  | level l s r =>
    let steps := addSteps atEnd (l <|> lvl) (s <|> sd) name front r
    if atEnd || steps.length == front.length then steps
    else restore (l.map fun _ => lvl) (s.map fun _ => sd) steps

/-- The rank of a rule without choices. -/
def rankOf : Rule σ κ → Int
  | empty | symbol _ | alt _ _ | many _ => 0
  | seq a b => heavier (rankOf a) (rankOf b)
  | level _ _ r | shown _ r => rankOf r
  | rank n r => heavier n (rankOf r)

/-- The spelling of a rule without choices. -/
def spelling (r : Rule σ κ) : Spelling σ κ :=
  ⟨(addSteps true none none none [] r).reverse, rankOf r⟩

/-- All spellings of a rule without repetitions, each once. -/
def spellings [DecidableEq σ] [DecidableEq κ] (r : Rule σ κ) : List (Spelling σ κ) :=
  (r.alternatives.map spelling).eraseDups

end Rule

end ElementLens.Grammar
