import StyleAtlas.Survey.Basic

/-!
# Sessions

A session keeps the last survey that succeeded while a stylesheet is surveyed again and again.
-/

namespace StyleAtlas

/-- The last survey that succeeded, if there was one. -/
structure Session where
  survey : Option Survey

namespace Session

/-- No survey yet. -/
def init : Session :=
  ⟨none⟩

/-- Survey a stylesheet.  A survey that fails leaves the session as it was. -/
def run (s : Session) (source : Source) (options : SurveyOptions) (report : Report) :
    Except SurveyError Survey × Session :=
  match Survey.run source options report with
  | .ok survey => (.ok survey, ⟨some survey⟩)
  | .error e => (.error e, s)

end Session
end StyleAtlas
