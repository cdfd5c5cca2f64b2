import Memlog.Tool.Model

/-!
# The allocating statement

`mx_site_selected` looks at one frame of the stack, the first that has a name and is not one of the
allocator (`mxSiteFrame`), and compares its name and its address with the sites (`mxSiteSearch_eq`).
-/

namespace Memlog

/-- The frames at which the loop of `mx_site_selected` stops. -/
def Frame.statement (fr : Frame) : Option (Addr × Line) :=
  match fr.fn with
  | none => none
  | some fn => if isAllocatorFrame fn then none else some (fr.ip, fn)

theorem statement_some (ip : Addr) (fn : Line) :
    Frame.statement ⟨ip, some fn⟩ = if isAllocatorFrame fn then none else some (ip, fn) := rfl

/-- The address and the name of the frame that `mx_site_selected` uses. -/
def mxSiteFrame (frames : List Frame) : Option (Addr × Line) := frames.findSome? Frame.statement

/-- The comparison of a frame with the sites. -/
def siteMatches (mxSites : List Line) (statement : Addr × Line) : Bool :=
  mxSites.any fun site => statement.2 == site || "0x".toList ++ printHexUpper statement.1 == site

/-- **The loop over the frames** is a search for one frame. -/
theorem mxSiteSearch_eq (mxSites : List Line) (frames : List Frame) :
    mxSiteSearch mxSites frames =
      (mxSiteFrame frames).any fun st => mxSites.isEmpty || siteMatches mxSites st := by
  induction frames with
  | nil => rfl
  | cons fr frames ih =>
    obtain ⟨ip, fn⟩ := fr
    unfold mxSiteFrame at ih ⊢
    cases fn with
    | none =>
      rw [mxSiteSearch, ih]
      rfl
    | some fn =>
      rw [mxSiteSearch, List.findSome?_cons, statement_some]
      split
      · exact ih
      · rfl

end Memlog
