/-!
# Command lines

What the compiler is asked to do. Options may stand before or behind the name of the source, a value
follows its option in the next word, after `=`, or right behind a short option, and `--` ends the
options.
-/

namespace MiniC

/-- A request to compile one source. -/
structure CommandLine where
  input : String
  /-- Where the code goes; without a name it goes to the standard output. -/
  output : Option String := none
  verbose : Bool := false
  /-- Whether to list the resolved tree. -/
  dumpTree : Bool := false
  deriving DecidableEq, Repr

namespace CommandLine

/-- How the compiler is called. -/
def usage : String :=
  "Usage: minic [OPTIONS] <INPUT>\n\n" ++
  "Arguments:\n" ++
  "  <INPUT>  Input C source file\n\n" ++
  "Options:\n" ++
  "  -o, --output <FILE>  Write the instructions to FILE instead of stdout\n" ++
  "  -v, --verbose        Enable verbose diagnostic output\n" ++
  "      --dump-ast       Print the resolved tree to stderr\n" ++
  "  -h, --help           Print help\n"

/-- What the words of a command line have said so far. -/
structure Draft where
  input : Option String := none
  output : Option String := none
  verbose : Bool := false
  dumpTree : Bool := false
  help : Bool := false
  deriving DecidableEq, Repr

/-- Takes a word that is no option. There is one source. -/
def Draft.takeInput (draft : Draft) (word : String) : Except String Draft :=
  match draft.input with
  | none => .ok { draft with input := some word }
  | some _ => .error ("unexpected argument '" ++ word ++ "' found")

/-- Takes the name of the output, which may be given once. -/
def Draft.takeOutput (draft : Draft) (word : String) : Except String Draft :=
  match draft.output with
  | none => .ok { draft with output := some word }
  | some _ => .error "the argument '--output <FILE>' cannot be used multiple times"

/-- The rest of a word behind its start. -/
def after? (start word : String) : Option String :=
  if start.toList.isPrefixOf word.toList then
    some (String.ofList (word.toList.drop start.length))
  else none

/-- An option that carries its value in its own word, and that value. -/
def joinedOutput? (word : String) : Option String :=
  (after? "--output=" word).or <| (after? "-o=" word).or <| after? "-o" word

/-- Whether a word is meant as an option. -/
def isOption (word : String) : Bool := word.startsWith "-" && word != "-"

/-- Reads the words of a command line from the left. -/
def Draft.read (draft : Draft) : List String → Except String Draft
  | [] => .ok draft
  | "--" :: words => words.foldlM Draft.takeInput draft
  | "-v" :: words | "--verbose" :: words => { draft with verbose := true }.read words
  | "--dump-ast" :: words => { draft with dumpTree := true }.read words
  | "-h" :: words | "--help" :: words => { draft with help := true }.read words
  | ["-o"] | ["--output"] =>
    .error "a value is required for '--output <FILE>' but none was supplied"
  | "-o" :: name :: words | "--output" :: name :: words =>
    match draft.takeOutput name with
    | .ok draft => draft.read words
    | .error reason => .error reason
  | word :: words =>
    let taken :=
      match joinedOutput? word with
      | some name => draft.takeOutput name
      | none =>
        if isOption word then .error ("unexpected argument '" ++ word ++ "' found")
        else draft.takeInput word
    match taken with
    | .ok draft => draft.read words
    | .error reason => .error reason

/-- Reads a command line. Without a request there is a text to show instead, and whether it was
asked for. -/
def ofWords (words : List String) : Except (String × Bool) CommandLine :=
  match Draft.read {} words with
  | .error reason => .error ("error: " ++ reason ++ "\n\n" ++ usage, false)
  | .ok draft =>
    if draft.help then .error ("C subset to P-machine compiler\n\n" ++ usage, true)
    else
      match draft.input with
      | none =>
        .error ("error: the required argument <INPUT> was not provided\n\n" ++ usage, false)
      | some input =>
        .ok { input, output := draft.output, verbose := draft.verbose, dumpTree := draft.dumpTree }

end CommandLine

end MiniC
