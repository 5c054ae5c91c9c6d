/-!
# Code — fragments and drafts

Generated code is a sequence of fragments: pieces of text, and marks that open and close the code of
a subexpression.  A `CodeDraft` keeps the pieces as a tree, one branch for each nested part, and
joins neighbouring texts; `CodeDraft.finish` reads the tree off.  Closing a part when none is open
has no effect, and parts still open at the end are closed.
-/

namespace DataBinding

/-- One step of writing code. -/
inductive Fragment where
  | text (s : String)
  | enter
  | leave
deriving DecidableEq, Repr

/-- Written code: texts, and nested parts with their own code. -/
inductive CodeTree where
  | text (s : String)
  | nested (parts : List CodeTree)

namespace CodeTree

mutual

/-- The text of a tree. -/
def flatten : CodeTree → String
  | text s => s
  | nested parts => flattenAll parts

/-- The texts of trees, one after the other. -/
def flattenAll : List CodeTree → String
  | [] => ""
  | part :: rest => part.flatten ++ flattenAll rest

end

end CodeTree

/-- Code under construction.  Sequences of parts are kept in reverse; `opened` holds the parts that
are still open, the innermost first. -/
structure CodeDraft where
  root : List CodeTree := []
  opened : List (List CodeTree) := []

namespace CodeDraft

/-- Appends a text to a reversed sequence, joined to a text that ends it. -/
def appendText (s : String) : List CodeTree → List CodeTree
  | .text last :: parts => .text (last ++ s) :: parts
  | parts => .text s :: parts

/-- Changes the innermost open part. -/
def modifyCurrent (f : List CodeTree → List CodeTree) (d : CodeDraft) : CodeDraft :=
  match d.opened with
  | [] => { d with root := f d.root }
  | innermost :: outer => { d with opened := f innermost :: outer }

/-- Closes the innermost open part, if there is one. -/
def close (d : CodeDraft) : CodeDraft :=
  match d.opened with
  | [] => d
  | innermost :: outer =>
    modifyCurrent (.nested innermost.reverse :: ·) { d with opened := outer }

/-- Writes one fragment.  An empty text leaves no trace. -/
def write (d : CodeDraft) : Fragment → CodeDraft
  | .text s => if s.isEmpty then d else d.modifyCurrent (appendText s)
  | .enter => { d with opened := [] :: d.opened }
  | .leave => d.close

/-- Writes fragments in order. -/
def writeAll (d : CodeDraft) (fragments : List Fragment) : CodeDraft := fragments.foldl write d

/-- Closes the given number of parts. -/
def closeMany : Nat → CodeDraft → CodeDraft
  | 0, d => d
  | n + 1, d => closeMany n d.close

/-- The text written so far, with every open part closed. -/
def finish (d : CodeDraft) : String :=
  CodeTree.flattenAll (closeMany d.opened.length d).root.reverse

end CodeDraft

/-- The texts of the fragments in order, without regard to nesting. -/
def Fragment.plain (fragments : List Fragment) : String :=
  fragments.foldl (fun out f => match f with | .text s => out ++ s | .enter | .leave => out) ""

end DataBinding
