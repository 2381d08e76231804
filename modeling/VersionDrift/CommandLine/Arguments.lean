import VersionDrift.Text.Basic

/-!
# Command lines

Words are read from the left, and the first fault, or the first word that asks for
help or for the version, decides. A flag or an option may stand only once. The value
of an option is the next word or follows an equals sign; a word that begins with a
dash is a value only after the sign, or if it is the dash alone. No other words are
allowed.
-/

set_option autoImplicit false

namespace VersionDrift

inductive Flag where
  | check
  | diff
  | verbose
deriving DecidableEq, Repr

inductive OptionName where
  | root
  | header
  | manifest
  | stem
  | config
deriving DecidableEq, Repr

structure Arguments where
  flags : List Flag
  options : List (OptionName × Text)
deriving DecidableEq, Repr

inductive UsageFault where
  | unknown (word : Text)
  | unexpected (word : Text)
  | repeated (name : Text)
  | noValueTaken (name : Text)
  | missingValue (name : Text)
deriving DecidableEq, Repr

inductive Command where
  | help
  | version
  | run (a : Arguments)
deriving DecidableEq, Repr

namespace UsageFault

def message : UsageFault → Text
  | unknown word => "unexpected argument '".toList ++ word ++ "' found".toList
  | unexpected word => "unexpected argument '".toList ++ word ++ "' found".toList
  | repeated name => "the argument '".toList ++ name ++ "' cannot be used multiple times".toList
  | noValueTaken name => "the argument '".toList ++ name ++ "' takes no value".toList
  | missingValue name => "a value is required for '".toList ++ name ++ "'".toList

end UsageFault

namespace Arguments

def none : Arguments := ⟨[], []⟩

def has (a : Arguments) (f : Flag) : Bool := a.flags.contains f

def value? (a : Arguments) (o : OptionName) : Option Text := a.options.lookup o

inductive Name where
  | flag (f : Flag)
  | option (o : OptionName)
  | help
  | version
deriving DecidableEq, Repr

def longNames : List (Text × Name) :=
  [("check".toList, .flag .check), ("diff".toList, .flag .diff),
   ("verbose".toList, .flag .verbose), ("root".toList, .option .root),
   ("header".toList, .option .header), ("manifest".toList, .option .manifest),
   ("prefix".toList, .option .stem), ("config".toList, .option .config),
   ("help".toList, .help), ("version".toList, .version)]

def shortNames : List (Char × Name) :=
  [('v', .flag .verbose), ('h', .help), ('V', .version)]

def addFlag (word : Text) (f : Flag) (a : Arguments) : Except UsageFault Arguments :=
  if a.has f then .error (.repeated word) else .ok { a with flags := f :: a.flags }

def addOption (word : Text) (o : OptionName) (value : Text) (a : Arguments) :
    Except UsageFault Arguments :=
  if (a.value? o).isSome then .error (.repeated word)
  else if value.isEmpty && o ≠ .stem then .error (.missingValue word)
  else .ok { a with options := (o, value) :: a.options }

/-- The word is no value of the option before it. -/
def looksLikeOption (word : Text) : Bool := word.head? = some '-' && word ≠ ['-']

def splitValue (word : Text) : Text × Option Text :=
  let name := word.takeWhile (· ≠ '=')
  (name, match word.drop name.length with
    | [] => Option.none
    | _ :: value => some value)

/-- The letters after one dash: flags, up to one that asks for help or the version. -/
def readLetters : Text → Arguments → Except UsageFault (Command ⊕ Arguments)
  | [], a => .ok (.inr a)
  | c :: cs, a =>
    match shortNames.lookup c with
    | some .help => .ok (.inl .help)
    | some .version => .ok (.inl .version)
    | some (.flag f) => (addFlag ['-', c] f a).bind (readLetters cs)
    | _ => .error (.unknown ['-', c])

def read : List Text → Arguments → Except UsageFault Command
  | [], a => .ok (.run a)
  | word :: words, a =>
    match word with
    | ['-', '-'] =>
      match words with
      | [] => .ok (.run a)
      | w :: _ => .error (.unexpected w)
    | '-' :: '-' :: long =>
      let (name, value?) := splitValue long
      match longNames.lookup name, value?, words with
      | Option.none, _, _ => .error (.unknown word)
      | some (.option o), some value, words => (addOption word o value a).bind (read words)
      | some (.option o), Option.none, value :: words =>
        if looksLikeOption value then .error (.missingValue word)
        else (addOption word o value a).bind (read words)
      | some (.option _), Option.none, [] => .error (.missingValue word)
      | some _, some _, _ => .error (.noValueTaken word)
      | some (.flag f), Option.none, words => (addFlag word f a).bind (read words)
      | some .help, Option.none, _ => .ok .help
      | some .version, Option.none, _ => .ok .version
    | '-' :: c :: cs => do
      match ← readLetters (c :: cs) a with
      | .inl command => return command
      | .inr a => read words a
    | word => .error (.unexpected word)

end Arguments

def Command.ofWords (words : List Text) : Except UsageFault Command :=
  Arguments.read words .none

end VersionDrift
