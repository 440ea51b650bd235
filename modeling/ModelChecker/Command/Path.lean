namespace ModelChecker.Path

def splitSlashes : List Char → List (List Char)
  | [] => [[]]
  | c :: rest =>
    if c = '/' then [] :: splitSlashes rest
    else
      match splitSlashes rest with
      | part :: parts => (c :: part) :: parts
      | [] => [[c]]

def joinSlashes (parts : List (List Char)) : List Char := (parts.intersperse ['/']).flatten

/-- The parts of a path. There is always one, and it may be empty. -/
def parts (path : String) : List String := (splitSlashes path.toList).map String.ofList

def isAbsolute (path : String) : Bool := path.toList.head? = some '/'

/-- Whether a part stands for an entry of a folder, and not for a folder that is known already. -/
def isName (part : String) : Bool := part ≠ "" ∧ part ≠ "." ∧ part ≠ ".."

/-- The last named part of a path and what stands before it, from the parts in reverse. Empty parts
and single dots at the end name nothing. -/
def lastName? : List (List Char) → Option (List (List Char) × List Char)
  | [] => none
  | part :: before =>
    if part = [] ∨ part = ['.'] then lastName? before
    else if part = ['.', '.'] then none
    else some (before.reverse, part)

def stem (name : List Char) : List Char :=
  match (name.reverse.dropWhile (· ≠ '.')).drop 1 with
  | [] => name
  | s => s.reverse

def extension (name : List Char) : List Char := name.drop ((stem name).length + 1)

def cutExtension (path : List Char) : List Char :=
  match lastName? (splitSlashes path).reverse with
  | none => path
  | some (_, name) => path.take (path.length - (extension name).length)

/-- Puts an extension in the place of the one that a path has. A path that ends in no name stays as
it is. -/
def setExtension (path new : List Char) : List Char :=
  match lastName? (splitSlashes path).reverse with
  | none => path
  | some (before, name) => joinSlashes (before ++ [stem name ++ '.' :: new])

/-- The path of a file beside another, with the extension `tmp`. The old extension is cut off first:
where that leaves two dots, they name a folder and get no extension. -/
def temporary (path : String) : String :=
  String.ofList (setExtension (cutExtension path.toList) ['t', 'm', 'p'])

end ModelChecker.Path
