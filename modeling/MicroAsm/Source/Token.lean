import MicroAsm.Text.Basic
/-!
Tokens are the assignments of an instruction body, separated by commas. A chain `X=Y=rhs` stands
for `Y=rhs` in its own place and `X=rhs` after all other tokens.
-/
namespace MicroAsm
open Text

def afterLastEquals (s : Text) : Text := (s.reverse.takeWhile (· != '=')).reverse

/-- The destinations in front of the last link of a chain, and that link. Destinations are single
ASCII characters. -/
def unchain : Text → List Char × Text
  | d :: '=' :: rest =>
    match rest with
    | m :: '=' :: _ =>
      if d.toNat < 128 && m.toNat < 128 then
        let (destinations, link) := unchain rest
        (d :: destinations, link)
      else ([], d :: '=' :: rest)
    | _ => ([], d :: '=' :: rest)
  | token => ([], token)

def lastLink (token : Text) : Text := (unchain token).2

/-- The assignments that a chain makes besides its last link. -/
def otherLinks (token : Text) : List Text :=
  let rhs := afterLastEquals token
  (unchain token).1.map fun d => d :: '=' :: rhs

def expandChains (tokens : List Text) : List Text :=
  tokens.map lastLink ++ tokens.flatMap otherLinks

def tokenize (body : Text) : List Text :=
  expandChains (((body.splitOn ',').map trim).filter fun t => !t.isEmpty)

end MicroAsm
