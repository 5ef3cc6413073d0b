import RepoAudit.Diff.Edit

/-!
# Shortest edit scripts

The search divides and conquers: what both sequences start and end with is kept, and the rest is
cut at a point that some shortest script passes. That point is found by reaching out from both
ends at once, diagonal by diagonal, until the two fronts meet.
-/

namespace RepoAudit.Diff

variable {α : Type} [DecidableEq α]

/-- How many items two lists have in common at their starts. -/
def commonLead : List α → List α → Nat
  | a :: as, b :: bs => if a = b then commonLead as bs + 1 else 0
  | _, _ => 0

/-- How many items two lists have in common at their ends. -/
def commonTail (as bs : List α) : Nat :=
  commonLead as.reverse bs.reverse

/-- The furthest reach on each diagonal. -/
structure Front where
  /-- The reach on the diagonals from `-middle` on. -/
  reach : Array Nat
  /-- The place of diagonal zero. -/
  middle : Nat

namespace Front

/-- A front on which nothing has been reached. -/
def start (bound : Nat) : Front :=
  ⟨Array.replicate (2 * bound + 2) 0, bound⟩

/-- The reach on a diagonal. -/
def reachOn (f : Front) (k : Int) : Nat :=
  f.reach.getD (k + f.middle).toNat 0

/-- The front with a new reach on a diagonal. -/
def put (f : Front) (k : Int) (x : Nat) : Front :=
  { f with reach := f.reach.setIfInBounds (k + f.middle).toNat x }

/-- The first reach on a diagonal in round `d`, from the better of its two neighbours. -/
def advance (f : Front) (d : Nat) (k : Int) : Nat :=
  if k = -(d : Int) || (k ≠ d && f.reachOn (k - 1) < f.reachOn (k + 1)) then f.reachOn (k + 1)
  else f.reachOn (k - 1) + 1

end Front

/-- How far two arrays agree from two places on. -/
def agreeFrom (as bs : Array α) : (fuel x y : Nat) → Nat
  | 0, _, _ => 0
  | fuel + 1, x, y =>
    match as[x]?, bs[y]? with
    | some a, some b => if a = b then agreeFrom as bs fuel (x + 1) (y + 1) + 1 else 0
    | _, _ => 0

/-- The diagonals that round `d` looks at, from the top. -/
def diagonals (d : Nat) : List Int :=
  (List.range (d + 1)).map fun (i : Nat) => (d : Int) - 2 * (i : Int)

/-- Advances one front in round `d` over some diagonals. It stops with the cut that `meets` finds,
given the diagonal, where the reach started, and where it ends. -/
def advanceFront (as bs : Array α) (d : Nat) (meets : Int → Nat → Nat → Option (Nat × Nat)) :
    Front → List Int → Except (Nat × Nat) Front
  | front, [] => .ok front
  | front, k :: ks =>
    let x := front.advance d k
    let y := ((x : Int) - k).toNat
    let reached := x + agreeFrom as bs as.size x y
    match meets k x reached with
    | some cut => .error cut
    | none => advanceFront as bs d meets (front.put k reached) ks

/-- Looks for a cut in the rounds from `d` on. -/
def meetFrom (as bs asBack bsBack : Array α) :
    (rounds d : Nat) → Front → Front → Option (Nat × Nat)
  | 0, _, _, _ => none
  | rounds + 1, d, forward, backward =>
    let n := as.size
    let m := bs.size
    let delta : Int := (n : Int) - m
    let odd := delta % 2 ≠ 0
    let meetsForward (k : Int) (x reached : Nat) : Option (Nat × Nat) :=
      if odd && (k - delta).natAbs + 1 ≤ d && n ≤ reached + backward.reachOn (-(k - delta)) then
        some (x, ((x : Int) - k).toNat)
      else none
    match advanceFront as bs d meetsForward forward (diagonals d) with
    | .error cut => some cut
    | .ok forward =>
      let meetsBackward (k : Int) (_ reached : Nat) : Option (Nat × Nat) :=
        if !odd && (k - delta).natAbs ≤ d && n ≤ reached + forward.reachOn (-(k - delta)) then
          some (n - reached, m - ((reached : Int) - k).toNat)
        else none
      match advanceFront asBack bsBack d meetsBackward backward (diagonals d) with
      | .error cut => some cut
      | .ok backward => meetFrom as bs asBack bsBack rounds (d + 1) forward backward

/-- A point that some shortest script between two sequences passes. -/
def cut? (as bs : List α) : Option (Nat × Nat) :=
  let bound := (as.length + bs.length + 1) / 2 + 1
  meetFrom as.toArray bs.toArray as.reverse.toArray bs.reverse.toArray bound 0
    (Front.start bound) (Front.start bound)

/-- The script that deletes one sequence and inserts another, without empty edits. -/
def exchange (old new : Nat) (as bs : List α) : Script :=
  (if 0 < as.length then [.delete old new as.length] else []) ++
    (if 0 < bs.length then [.insert old new bs.length] else [])

/-- The edits between two sequences that stand at given places, without empty ones. -/
def searchFrom : (fuel old new : Nat) → List α → List α → Script
  | 0, old, new, as, bs => exchange old new as bs
  | fuel + 1, old, new, as, bs =>
    let lead := commonLead as bs
    let as' := as.drop lead
    let bs' := bs.drop lead
    let tail := commonTail as' bs'
    let as'' := as'.take (as'.length - tail)
    let bs'' := bs'.take (bs'.length - tail)
    let old' := old + lead
    let new' := new + lead
    let middle : Script :=
      if as''.isEmpty || bs''.isEmpty then exchange old' new' as'' bs''
      else
        match cut? as'' bs'' with
        | some (x, y) =>
          searchFrom fuel old' new' (as''.take x) (bs''.take y) ++
            searchFrom fuel (old' + x) (new' + y) (as''.drop x) (bs''.drop y)
        | none => exchange old' new' as'' bs''
    (if 0 < lead then [.keep old new lead] else []) ++ middle ++
      (if 0 < tail then [.keep (old' + as''.length) (new' + bs''.length) tail] else [])

/-- A shortest script from one sequence to another. -/
def search (as bs : List α) : Script :=
  searchFrom (as.length + bs.length + 1) 0 0 as bs

end RepoAudit.Diff
