/-!
# Faults

A fault stops a request as a whole: the value at hand cannot be read or written at all, so there is
no answer to give. Everything else that may go wrong is a finding of the domain (a problem in a
configuration, a rejected value, a rule that is false) and is reported as such.
-/

namespace Shortlist

/-- What stops a request. -/
inductive Fault
  /-- A numeral holds a digit that has no decimal value. -/
  | ornamentalDigit
  /-- An integer has more decimal digits than are read or written. -/
  | tooManyDigits
  /-- A text that has to be a number is none. -/
  | notANumeral
  /-- A value that has to be a number is of another kind. -/
  | notANumber
  /-- An integer lies beyond the largest double. -/
  | beyondDouble
  /-- A list or an object stands where a value has to be a member of a set or a key. -/
  | notAKey
  | notAnObject
  | notUtf8
  | isDirectory
  /-- A path goes on below a file. -/
  | notADirectory
  | nameTooLong
  | zeroInPath
  /-- A value that has no keys is asked for one. -/
  | withoutKeys
  | nestedTooDeeply
  /-- An option that takes a pair has none. -/
  | missingPair
deriving DecidableEq, Repr

end Shortlist
