import RpnCalculator.Text.ClusterClass

/-!
# Clusters

A text falls into clusters, each of which a reader takes for one character.  The borders are
those of extended grapheme clusters.  Most of them are decided by the two characters at the
place in question.  Three rules look further back:

* a picture joins a joiner before it if there is a picture before that, with nothing but
  marks between;
* a consonant joins the marks before it if one of them is a linker and a consonant is before
  them;
* halves of a flag come in pairs.

None of them looks back over a border, so it is enough to know the characters of the cluster so
far, and `Trail` is what the rules need to know of them.  The clusters of a text, put
together, are the text (`flatten_clusters`).
-/

namespace RpnCalculator
namespace Text

/-! ## Looking back -/

/-- Whether a character of this class is a mark without a width of its own. -/
def ClusterClass.isMark (k : ClusterClass) : Bool := k == .extend || k == .linker || k == .nonJoiner

/-- Whether a character of this class can stand between two consonants that are linked. -/
def ClusterClass.isLink (k : ClusterClass) : Bool := k == .extend || k == .linker || k == .joiner

/-- What the rules need to know of the characters of a cluster. -/
structure Trail where
  /-- The class of the last one. -/
  last : ClusterClass
  /-- Whether they end in a picture and marks. -/
  picture : Bool
  /-- Whether they end in a picture, marks and a joiner. -/
  joined : Bool
  /-- Whether they end in a consonant and what can link it. -/
  consonant : Bool
  /-- Whether there is a linker behind that consonant. -/
  linked : Bool
  /-- Whether they end in an odd number of halves of flags. -/
  half : Bool
  deriving DecidableEq, Repr

namespace Trail

/-- A single character. -/
def start (k : ClusterClass) : Trail where
  last := k
  picture := k == .pictograph
  joined := false
  consonant := k == .consonant
  linked := false
  half := k == .regional

/-- One more character. -/
def add (t : Trail) (k : ClusterClass) : Trail where
  last := k
  picture := k == .pictograph || t.picture && k.isMark
  joined := t.picture && k == .joiner
  consonant := k == .consonant || t.consonant && k.isLink
  linked := t.consonant && k.isLink && (t.linked || k == .linker)
  half := k == .regional && !t.half

/-- Whether the next character belongs to the cluster. -/
def joins (t : Trail) (k : ClusterClass) : Bool :=
  match t.last, k with
  | .carriageReturn, .lineFeed => true
  | .carriageReturn, _ | .lineFeed, _ | .control, _ => false
  | _, .carriageReturn | _, .lineFeed | _, .control => false
  | _, .extend | _, .linker | _, .nonJoiner | _, .joiner | _, .spacing => true
  | .prepended, _ => true
  | .leading, .leading | .leading, .vowel => true
  | .leading, .openSyllable | .leading, .closedSyllable => true
  | .vowel, .vowel | .vowel, .trailing => true
  | .openSyllable, .vowel | .openSyllable, .trailing => true
  | .trailing, .trailing | .closedSyllable, .trailing => true
  | _, .consonant => t.linked
  | _, .pictograph => t.joined
  | _, .regional => t.half
  | _, _ => false

end Trail

/-! ## Cutting a text into clusters -/

/-- The rest of a cluster, and the clusters after it. -/
def clustersAfter (t : Trail) : List Char → List Char × List (List Char)
  | [] => ([], [])
  | c :: cs =>
    let k := clusterClass c
    if t.joins k then
      let (own, others) := clustersAfter (t.add k) cs
      (c :: own, others)
    else
      let (own, others) := clustersAfter (.start k) cs
      ([], (c :: own) :: others)

/-- The clusters of a text. -/
def clusters : List Char → List (List Char)
  | [] => []
  | c :: cs =>
    let (own, others) := clustersAfter (.start (clusterClass c)) cs
    (c :: own) :: others

theorem flatten_clustersAfter (t : Trail) (cs : List Char) :
    (clustersAfter t cs).1 ++ (clustersAfter t cs).2.flatten = cs := by
  induction cs generalizing t with
  | nil => rfl
  | cons c cs ih =>
    unfold clustersAfter
    dsimp only
    split
    · simpa using ih (t.add (clusterClass c))
    · simpa using ih (.start (clusterClass c))

/-- **No character is lost and none is added.** -/
theorem flatten_clusters (cs : List Char) : (clusters cs).flatten = cs := by
  cases cs with
  | nil => rfl
  | cons c cs => simpa [clusters] using flatten_clustersAfter (.start (clusterClass c)) cs

end Text
end RpnCalculator
