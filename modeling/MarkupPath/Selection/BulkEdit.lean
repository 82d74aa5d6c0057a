import MarkupPath.Selection.ResultSet
import MarkupPath.Tree.Edit

/-!
# Bulk edits

An edit of every member of a result set, one after the other. A member that cannot be edited is
reported and left as it is; the edits of the others stay.
-/

set_option autoImplicit false

namespace MarkupPath.Selection

open MarkupPath.Tree

/-- The document after an edit of each of some nodes in order, and the edits that failed. -/
def editEach (edit : Document → NodeId → Except TreeError Document) (doc : Document) :
    List NodeId → List (NodeId × TreeError) × Document
  | [] => ([], doc)
  | id :: rest =>
      match edit doc id with
      | .ok edited => editEach edit edited rest
      | .error e =>
          let (failures, edited) := editEach edit doc rest
          ((id, e) :: failures, edited)

namespace ResultSet

/-- The document after an edit of each member, and the members it failed on. -/
def apply (s : ResultSet) (doc : Document) (edit : Document → NodeId → Except TreeError Document) :
    List (NodeId × TreeError) × Document :=
  editEach edit doc s.ids

/-- The document with an attribute set on each member. -/
def setAttribute (s : ResultSet) (doc : Document) (name value : String) :
    List (NodeId × TreeError) × Document :=
  s.apply doc fun doc id => (doc.setAttribute id name value).map (·.2)

/-- The document with an attribute removed from each member. -/
def removeAttribute (s : ResultSet) (doc : Document) (name : String) :
    List (NodeId × TreeError) × Document :=
  s.apply doc fun doc id => (doc.removeAttribute id name).map (·.2)

/-- The document with the own text of each member replaced. -/
def setText (s : ResultSet) (doc : Document) (text : String) :
    List (NodeId × TreeError) × Document :=
  s.apply doc fun doc id => (doc.setText id text).map (·.2)

/-- The document with each member made the root of a tree of its own. -/
def removeElements (s : ResultSet) (doc : Document) : List (NodeId × TreeError) × Document :=
  s.apply doc fun doc id => doc.remove id

end ResultSet

end MarkupPath.Selection
