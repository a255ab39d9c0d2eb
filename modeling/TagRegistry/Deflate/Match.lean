import TagRegistry.Deflate.Symbol

/-! Finding octets that occurred before.

Places at which the same three octets stand are linked in chains, the latest place first. Places
are kept modulo 65536, and only the last 32768 have a link, so a chain may lead to a place with
other octets; what it leads to is compared. A search follows a chain for a limited number of
steps and takes the longest match. -/

namespace TagRegistry.Deflate

/-- How far back a copy may reach. -/
def windowSize : Nat := 32768

/-- Places are kept modulo this number. -/
def placeRange : Nat := 65536

structure Chains where
  /-- The latest place for each hash of three octets. -/
  heads : Array Nat
  /-- The place before each place. Zero ends a chain. -/
  links : Array Nat
  /-- The number of places entered. -/
  entered : Nat
  deriving DecidableEq, Repr

/-- A hash of three octets, below 32768. -/
def hash (a b c : UInt8) : Nat :=
  ((a.toNat <<< 10) ^^^ (b.toNat <<< 5) ^^^ c.toNat) % windowSize

namespace Chains

def empty : Chains := ⟨Array.replicate windowSize 0, Array.replicate windowSize 0, 0⟩

def enter (content : Array UInt8) : Chains → Chains
  | ⟨heads, links, place⟩ =>
    let h := hash (content.getD place 0) (content.getD (place + 1) 0) (content.getD (place + 2) 0)
    let links := links.setIfInBounds (place % windowSize) (heads.getD h 0)
    ⟨heads.setIfInBounds h (place % placeRange), links, place + 1⟩

def enterMany (content : Array UInt8) : Nat → Chains → Chains
  | 0, c => c
  | count + 1, c => enterMany content count (c.enter content)

/-- Enters all places that have three octets in front of `stop`. -/
def enterBefore (content : Array UInt8) (stop : Nat) (c : Chains) : Chains :=
  let count := stop - 2 - c.entered
  c.enterMany content count

end Chains

/-- A match: its length, and how far back it is; zero means that there is none. -/
structure Match where
  length : Nat
  distance : Nat
  deriving DecidableEq, Repr

/-- What a search looks at. -/
structure Search where
  content : Array UInt8
  links : Array Nat
  place : Nat
  reach : Nat
  limit : Nat

namespace Search

def octet (s : Search) (i : Nat) : UInt8 := s.content.getD i 0

/-- Do the two octets agree that a longer match than one of this length would end with? -/
def agreesAt (s : Search) (distance length : Nat) : Bool :=
  s.octet (s.place + length - distance) == s.octet (s.place + length) &&
    s.octet (s.place + length - 1 - distance) == s.octet (s.place + length - 1)

/-- Where following a chain leads. -/
inductive Step where
  | ended
  /-- Nothing so far; the chain goes on at this link. -/
  | missed (link : Nat)
  | candidate (link distance : Nat)

/-- Follows a chain, at most so many links, to a candidate for a longer match. -/
def follow (s : Search) (length : Nat) : Nat → Nat → Step
  | 0, link => .missed link
  | tries + 1, link =>
    let next := s.links.getD link 0
    let distance := (s.place % placeRange + placeRange - next) % placeRange
    if next = 0 ∨ s.reach < distance then .ended
    else
      let link := next % windowSize
      if s.agreesAt distance length then .candidate link distance else s.follow length tries link

/-- How many octets agree at a distance, from `length` on. `fuel` is how many there may be. -/
def matchLength (s : Search) (distance : Nat) : Nat → Nat → Nat
  | 0, length => length
  | fuel + 1, length =>
    if s.octet (s.place + length - distance) == s.octet (s.place + length) then
      s.matchLength distance fuel (length + 1)
    else length

/-- Looks for a match longer than the best one so far. `rounds` bounds the steps, three links
each. -/
def longest (s : Search) : Nat → Nat → Match → Match
  | 0, _, best => best
  | rounds + 1, link, best =>
    match s.follow best.length 3 link with
    | .ended => best
    | .missed link => s.longest rounds link best
    | .candidate link distance =>
      if distance = 0 then best
      else
        let length := s.matchLength distance s.limit 0
        if length ≤ best.length then s.longest rounds link best
        else if length = s.limit then ⟨length, distance⟩
        else s.longest rounds link ⟨length, distance⟩

/-- How many rounds a search takes, few if there is a long match already. -/
def roundsFor (length : Nat) : Nat := if length < 32 then 43 else 11

/-- The longest match, if it is longer than `length`. -/
def run (s : Search) (length : Nat) : Match :=
  if s.limit ≤ length then ⟨length, 0⟩
  else s.longest (roundsFor length) (s.place % windowSize) ⟨length, 0⟩

end Search

end TagRegistry.Deflate
