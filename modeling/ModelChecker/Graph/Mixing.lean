namespace ModelChecker

/-- Scatters a word over all 64 bits, one to one: an odd constant is added, then the word is twice
folded onto itself and multiplied by an odd constant, and folded once more. -/
def mix64 (x : UInt64) : UInt64 :=
  let x := x + 0x9e3779b97f4a7c15
  let x := (x ^^^ (x >>> 30)) * 0xbf58476d1ce4e5b9
  let x := (x ^^^ (x >>> 27)) * 0x94d049bb133111eb
  x ^^^ (x >>> 31)

end ModelChecker
