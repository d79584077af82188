import Tflib.Util.Strings

/-! # Lines of a configuration file

`parse_line` of `tf_conf_file.c`. A line is a section, in one of two notations,
or a pair of a key and a value, or nothing.
-/

namespace Tflib.Conf

open Tflib.Core Tflib.Util

/-- `TF_KEYVAL_ST`; a section is its name without a value. -/
structure KeyVal where
  key : CString
  value : Option CString
  deriving DecidableEq

def groupWord : Bytes := "group".toList.map Char.toUInt8

def isSpaceOrTab (c : UInt8) : Bool := c = ' '.toUInt8 || c = '\t'.toUInt8

/-- What is skipped in front of the name behind the word `group`. -/
def isGroupSep (c : UInt8) : Bool := isSpaceOrTab c || c = '='.toUInt8

/-- What stands between a key and a value. -/
def isPairSep (c : UInt8) : Bool := isSpaceOrTab c || c = '='.toUInt8 || c = ':'.toUInt8

/-- `key` is moved on for every separator in `ptr`, wherever it stands. -/
def skipSeps (ptr : CString) (isSep : UInt8 → Bool) : CString := ptr.drop (ptr.val.countP isSep)

def sectionLine (name : CString) : Option KeyVal := if name.val = [] then none else some ⟨name, none⟩

/-- The variables of the loop over a pair: where a zero was stored behind the key, `kk`, and where
the value begins. -/
structure PairScan where
  keyEnd : Option Nat
  kk : Nat
  value : Option Nat

/-- The loop over a pair, and where it stops. -/
def scanPair : Bytes → Nat → PairScan → PairScan × Nat
  | [], ii, s => (s, ii)
  | c :: rest, ii, s =>
      if c = '#'.toUInt8 then (s, ii)
      else if isPairSep c then
        scanPair rest (ii + 1)
          (if s.keyEnd = none then { s with keyEnd := some ii, kk := ii + 1 }
          else if s.value = none then { s with kk := ii + 1 } else s)
      else
        scanPair rest (ii + 1)
          (if s.keyEnd ≠ none ∧ s.value = none then { s with value := some s.kk } else s)

def pairLine (ptr : CString) : Option KeyVal :=
  let (s, stop) := scanPair ptr.val 0 ⟨none, 0, none⟩
  match s.keyEnd, s.value with
  | some keyEnd, some value => some ⟨ptr.take keyEnd, some ((ptr.take stop).drop value)⟩
  | _, _ => none

def parseLine (str : CString) : Option KeyVal :=
  let ptr := tfStrtrim str
  if ptr.val.head? = some '#'.toUInt8 ∨ ptr.val = [] then none
  else if groupWord.isPrefixOf ptr.val then sectionLine (skipSeps (ptr.drop 5) isGroupSep)
  else if ptr.val.head? = some '['.toUInt8 then
    let ptr := ptr.drop 1
    let stop := ptr.val.findIdx (· = ']'.toUInt8)
    sectionLine (skipSeps (ptr.take stop) isSpaceOrTab)
  else pairLine ptr

end Tflib.Conf
