import Datasystem.Lib.Bytes

/-!
# Host and port strings

Member addresses are accepted in the form in which `HostPort` prints them. The two regular
expressions of the validator are sequences of byte classes and are matched as such.
-/

namespace Datasystem

/-- A sequence of byte classes, each from a lowest to a highest byte, matched against a whole
string. -/
def matchesClasses : List (UInt8 × UInt8) → Bytes → Bool
  | [], [] => true
  | (lo, hi) :: classes, b :: value => lo ≤ b && b ≤ hi && matchesClasses classes value
  | _, _ => false

private def digit : UInt8 × UInt8 := (48, 57)

/-- `25[0-5]|2[0-4][0-9]|1[0-9][0-9]|[0-9]{1,2}` -/
def octetPatterns : List (List (UInt8 × UInt8)) :=
  [[(50, 50),(53, 53),(48, 53)],[(50, 50),(48, 52),digit],[(49, 49),digit,digit],[digit],
    [digit,digit]]

/-- `(6553[0-5])|(655[0-2][0-9])|(65[0-4][0-9]{2})|(6[0-4][0-9]{3})|([1-5][0-9]{4})|([0-5]{1,5})|([0-9]{1,4})` -/
def portPatterns : List (List (UInt8 × UInt8)) :=
  [[(54, 54),(53, 53),(53, 53),(51, 51),(48, 53)],
    [(54, 54),(53, 53),(53, 53),(48, 50),digit],
    [(54, 54),(53, 53),(48, 52),digit,digit],
    [(54, 54),(48, 52),digit,digit,digit],
    [(49, 53),digit,digit,digit,digit]] ++
  (List.range' 1 5).map (fun n => List.replicate n (48, 53)) ++
  (List.range' 1 4).map (fun n => List.replicate n digit)

variable (value : Bytes)

/-- `Validator::IsInPortRange` for a nonempty port. -/
def isInPortRange : Bool := portPatterns.any fun p => matchesClasses p value

/-- The parts before and after the last occurrence of a byte. -/
def splitLast (sep : UInt8) : Bytes → Option (Bytes × Bytes)
  | [] => none
  | b :: value =>
    match splitLast sep value with
    | some (before, after) => some (b :: before, after)
    | none => if b = sep then some ([], value) else none

private def colon : UInt8 := 58

private def localhost : Bytes := [108,111,99,97,108,104,111,115,116]

/-- Four octets joined by dots, or `localhost`. -/
def isValidIPv4Host (host : Bytes) : Bool :=
  host = localhost ||
    (let parts := host.splitOn 46
     parts.length = 4 && parts.all fun part => octetPatterns.any fun p => matchesClasses p part)

def isValidIPv4HostPortString : Bool :=
  value.isEmpty || (splitLast colon value).any fun (host, port) => isValidIPv4Host host && isInPortRange port

def isValidIPv6HostPortString : Bool :=
  value.head? = some 91 && (splitLast colon value).any fun (host, port) =>
    host.getLast? = some 93 &&
    !(((value.drop 1).take 4 = [102,101,56,48] || (value.drop 1).take 4 = [70,69,56,48]) &&
      !value.contains 37) &&
    isInPortRange port

def validateHostPortString : Bool :=
  if value.head? = some 91 then isValidIPv6HostPortString value else isValidIPv4HostPortString value

def decimalValue : Nat := value.foldl (fun n b => 10 * n + (b.toNat - 48)) 0

structure HostPort where
  host : Bytes
  port : Nat
  isIPv6 : Bool
deriving DecidableEq, Repr

namespace HostPort

def parseString (value : Bytes) : Option HostPort :=
  if validateHostPortString value then
    (splitLast colon value).map fun (host, port) =>
      if value.head? = some 91 then ⟨(host.drop 1).dropLast,decimalValue port,true⟩
      else ⟨host,decimalValue port,false⟩
  else none

def toString (hp : HostPort) : Bytes :=
  if hp.isIPv6 then 91 :: hp.host ++ [93,colon] ++ Bytes.decimal hp.port
  else hp.host ++ [colon] ++ Bytes.decimal hp.port

/-- The address parses and prints back as it is. -/
def isCanonical (address : Bytes) : Bool := (parseString address).any fun hp => hp.toString = address

/-- `127.0.0.1:31501`, and two spellings the printer does not use. -/
example : isCanonical [49,50,55,46,48,46,48,46,49,58,51,49,53,48,49] = true ∧
    isCanonical [49,50,55,46,48,46,48,46,49,58,48,49] = false ∧
    isCanonical [49,50,55,46,48,46,49,58,49] = false := by
  decide

end HostPort

end Datasystem
