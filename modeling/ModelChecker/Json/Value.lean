namespace ModelChecker

inductive Json where
  | null
  | bool (b : Bool)
  /-- A number as it is spelled. -/
  | number (spelling : String)
  /-- What stands between the quotes. -/
  | string (spelling : String)
  | array (items : List Json)
  /-- The members in order, with their keys as they are spelled. -/
  | object (members : List (String × Json))
deriving Repr, Inhabited

end ModelChecker
