import DirectiveEngine.Actor
import DirectiveEngine.Template.Delimited

/-!
# Server placeholders

Online players and teams.  The team of a member list may itself be named by a variable, as in
`%teamplayers:%name%%`.
-/

namespace DirectiveEngine

/-- What the server says about all players. -/
structure ServerFacts where
  online : List Snapshot
  teams : List Team
  /-- The online player with a name, up to the case of ASCII letters. -/
  find? : Text → Option Actor

def replaceOnline (server : ServerFacts) (t : Text) : Text :=
  let t := Text.replaceAll "%players%" (Text.join "," (server.online.map Snapshot.name)) t
  let t := Text.replaceAll "%players_uuid%" (Text.join "," (server.online.map Snapshot.id)) t
  Text.replaceAll "%playercount%" (natText server.online.length) t

/-- The identifier of a member who is online, and the entry itself for others. -/
def memberId (server : ServerFacts) (entry : Text) : Text :=
  ((server.find? entry).bind Actor.id?).getD entry

/-- The members of the first team with a name, joined by commas. -/
def teamMembers (server : ServerFacts) (render : Text → Text) (name : Text) : Text :=
  match server.teams.find? fun team => team.name == name with
  | none => []
  | some team => Text.join "," (team.members.map render)

/-- Replaces spans whose inside is itself between percent signs.  One that is not closed by two percent signs
stays, and the search goes on behind its opening. -/
def replaceNested (opening : Text) (value : Text → Text) (t : Text) : Text :=
  match _h : Text.splitFirst? (opening ++ ['%']) t with
  | none => t
  | some (before, after) =>
    match _h' : Text.splitFirst? "%" after with
    | some (name, '%' :: rest) => before ++ value name ++ replaceNested opening value rest
    | _ => before ++ (opening ++ ['%']) ++ replaceNested opening value after
termination_by t.length
decreasing_by
  · have h₁ := Text.length_of_splitFirst? ‹Text.splitFirst? _ t = _›
    have h₂ := Text.length_of_splitFirst? ‹Text.splitFirst? _ after = _›
    simp_all
    omega
  · have h₁ := Text.length_of_splitFirst? ‹Text.splitFirst? _ t = _›
    simp_all
    omega

/-- One kind of member list: nested names first, then plain ones. -/
def replaceMembers (server : ServerFacts) (opening : Text) (render inner : Text → Text) (t : Text) : Text :=
  let t := replaceNested opening (fun name => teamMembers server render (inner name)) t
  replaceDelimited opening "%" (fun name => some (teamMembers server render name)) t

/-- Replaces all server placeholders; `inner` gives a meaning to a name inside another placeholder. -/
def replaceServerTokens (server : ServerFacts) (inner : Text → Text) (t : Text) : Text :=
  let t := replaceOnline server t
  let t := Text.replaceAll "%teams%" (Text.join "," (server.teams.map Team.name)) t
  let t := replaceMembers server "%teamplayers:" id inner t
  replaceMembers server "%teamplayers_uuid:" (memberId server) inner t

end DirectiveEngine
