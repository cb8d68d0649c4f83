/-
  Arguments of a command line: options and words.

  An option is given by its name behind two dashes or by its
  letter behind one. A value follows after an equals sign, as
  the next argument, or right behind the letter; letters of
  options without value may stand together. Two dashes alone
  make all that follows words.

  Key definitions include:
    * `OptionSpec`
    * `Arguments`
    * `Arguments.readHead?` and `Arguments.read?`
-/

------------------------------------------------------------
-- Options
------------------------------------------------------------

namespace Gatework

/- No value, one value at most once, or one value each time. -/
inductive Arity where
  | flag
  | once
  | many
deriving DecidableEq, Repr, Inhabited

/- An option that is known. -/
structure OptionSpec where
  name : String
  letter : Option Char := none
  arity : Arity := .once
deriving DecidableEq, Repr, Inhabited

/- An option that was given, with an empty value for a flag. -/
structure Given where
  name : String
  value : String := ""
deriving DecidableEq, Repr, Inhabited

/- What was given, in order. -/
structure Arguments where
  given : List Given := []
  words : List String := []
deriving DecidableEq, Repr, Inhabited

namespace Arguments

def has
    (a : Arguments)
    (name : String) :
    Bool :=
  a.given.any fun g => g.name == name

/- The values of an option. -/
def values
    (a : Arguments)
    (name : String) :
    List String :=
  (a.given.filter fun g => g.name == name).map Given.value

/- The value of an option that is given at most once. -/
def value?
    (a : Arguments)
    (name : String) :
    Option String :=
  (a.values name).head?

/- Only options that allow it are given more than once. -/
def isAdmissible
    (specs : List OptionSpec)
    (a : Arguments) :
    Bool :=
  specs.all fun spec =>
    decide (spec.arity = .many) || decide ((a.values spec.name).length ≤ 1)

end Arguments

end Gatework

------------------------------------------------------------
-- Single arguments
------------------------------------------------------------

namespace Gatework

/-
  An argument by itself: a word, the end of options, or given
  options of which the last may wait for its value.
-/
inductive Argument where
  | word (s : String)
  | endOfOptions
  | options (given : List Given) (waiting : Option String)
deriving DecidableEq, Repr, Inhabited

namespace Argument

/- An argument that is no option. A dash alone is none. -/
def isWord
    (s : String) :
    Bool :=
  match s.toList with
  | '-' :: _ :: _ => false
  | _ => true

/- An option by its name, with a value behind an equals sign. -/
def long?
    (specs : List OptionSpec)
    (cs : List Char) :
    Option Argument := do
  let name := String.ofList (cs.takeWhile fun c => c != '=')
  let spec ← specs.find? fun spec => spec.name == name
  match spec.arity, cs.dropWhile fun c => c != '=' with
  | .flag, [] => some (.options [⟨name, ""⟩] none)
  | .flag, _ => none
  | _, [] => some (.options [] (some name))
  | _, _ :: value => some (.options [⟨name, String.ofList value⟩] none)

/- Options by their letters. -/
def short?
    (specs : List OptionSpec) :
    List Char → Option Argument
  | [] => some (.options [] none)
  | c :: cs => do
      let spec ← specs.find? fun spec => spec.letter == some c
      match spec.arity, cs with
      | .flag, _ =>
          match ← short? specs cs with
          | .options given waiting =>
              some (.options (⟨spec.name, ""⟩ :: given) waiting)
          | _ => none
      | _, [] => some (.options [] (some spec.name))
      | _, '=' :: value =>
          some (.options [⟨spec.name, String.ofList value⟩] none)
      | _, value =>
          some (.options [⟨spec.name, String.ofList value⟩] none)

/- An argument by itself; none if it is an unknown option. -/
def read?
    (specs : List OptionSpec)
    (s : String) :
    Option Argument :=
  match s.toList with
  | ['-', '-'] => some .endOfOptions
  | '-' :: '-' :: cs => long? specs cs
  | '-' :: c :: cs => short? specs (c :: cs)
  | _ => some (.word s)

end Argument

end Gatework

------------------------------------------------------------
-- All arguments
------------------------------------------------------------

namespace Gatework

namespace Arguments

/- Arguments with some more given before them. -/
def after
    (given : List Given)
    (a : Arguments) :
    Arguments :=
  { a with given := given ++ a.given }

/-
  Reads options and words. An option may still wait for its
  value, which must be a word.
-/
def read?
    (specs : List OptionSpec) :
    Option String → List String → Option Arguments
  | none, [] => some {}
  | some _, [] => none
  | some name, s :: rest =>
      if Argument.isWord s then
        (read? specs none rest).map (after [⟨name, s⟩])
      else
        none
  | none, s :: rest => do
      match ← Argument.read? specs s with
      | .endOfOptions => return { words := rest }
      | .options given waiting =>
          return after given (← read? specs waiting rest)
      | .word w =>
          let a ← read? specs none rest
          return { a with words := w :: a.words }

/- Options before the first word. -/
structure Head where
  given : List Given
  word : String
  rest : List String
deriving DecidableEq, Repr, Inhabited

/- Reads options up to the first word, which must be there. -/
def readHead?
    (specs : List OptionSpec) :
    Option String → List String → Option Head
  | _, [] => none
  | some name, s :: rest =>
      if Argument.isWord s then do
        let h ← readHead? specs none rest
        return { h with given := ⟨name, s⟩ :: h.given }
      else
        none
  | none, s :: rest => do
      match ← Argument.read? specs s with
      | .endOfOptions => none
      | .options given waiting =>
          let h ← readHead? specs waiting rest
          return { h with given := given ++ h.given }
      | .word w => return ⟨[], w, rest⟩

end Arguments

end Gatework
