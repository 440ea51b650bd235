namespace ModelChecker

inductive FileError where
  | system (text : String) (code : Nat)
  | notText
deriving DecidableEq, Repr

namespace FileError

def message : FileError → String
  | .system text code => s!"{text} (os error {code})"
  | .notText => "stream did not contain valid UTF-8"

def noEntry : FileError := .system "No such file or directory" 2

def busy : FileError := .system "Device or resource busy" 16

def notDirectory : FileError := .system "Not a directory" 20

def isDirectory : FileError := .system "Is a directory" 21

def nameTooLong : FileError := .system "File name too long" 36

end FileError

structure Host (m : Type → Type) where
  read : String → m (Except FileError ByteArray)
  write : String → ByteArray → m (Except FileError Unit)
  rename : String → String → m (Except FileError Unit)
  /-- The revision of the tool, if it is known. -/
  revision : m (Option String)
  /-- Seconds since the start of 1970. -/
  seconds : m Nat
  /-- Milliseconds since some fixed moment. -/
  milliseconds : m Nat

end ModelChecker
