import Mathlib.Tactic.Common

/-!
# Arguments on a command line

A command line is words between blanks. An argument is a word `key=value`; the
last word with a key is the one which counts, so what follows a blank decides
all keys it has, whatever stands before it.
-/
namespace Okm6ullOta.CommandLines

def words (text : String) : List (List Char) := text.toList.splitOn ' '

/-- The value of a word `key=value`. -/
def setting (key : String) (w : List Char) : Option String :=
  if (key ++ "=").toList <+: w then some (String.ofList (w.drop (key.length + 1))) else none

def argument (key text : String) : Option String := ((words text).filterMap (setting key)).getLast?

theorem words_append (a b : String) : words (a ++ " " ++ b) = words a ++ words b := by
  have h : (a ++ " " ++ b).toList = a.toList ++ ' ' :: b.toList := by simp
  rw [words, h, List.splitOn_append_cons_self, words, words]

/-- Later arguments override earlier ones. -/
theorem argument_append (key a b : String) :
    argument key (a ++ " " ++ b) = (argument key b).or (argument key a) := by
  rw [argument, words_append, List.filterMap_append, List.getLast?_append, argument, argument]

theorem argument_override {key v b : String} (h : argument key b = some v) (a : String) :
    argument key (a ++ " " ++ b) = some v := by
  rw [argument_append, h, Option.some_or]

theorem argument_skip {key b : String} (h : argument key b = none) (a : String) :
    argument key (a ++ " " ++ b) = argument key a := by
  rw [argument_append, h, Option.none_or]

theorem setting_self (key v : String) : setting key (key ++ "=" ++ v).toList = some v := by
  have h : (key ++ "=" ++ v).toList = (key ++ "=").toList ++ v.toList := String.toList_append ..
  have hl : (key ++ "=").toList.length = key.length + 1 := by
    rw [String.length_toList, String.length_append]
    rfl
  rw [setting, h, if_pos (List.prefix_append ..), ← hl, List.drop_left, String.ofList_toList]

/-- A word which sets its key reads back. -/
theorem argument_self {key v : String} (hk : ' ' ∉ key.toList) (hv : ' ' ∉ v.toList) :
    argument key (key ++ "=" ++ v) = some v := by
  have h : ' ' ∉ (key ++ "=" ++ v).toList := by simp [hk, hv]
  rw [argument, words, List.splitOn_eq_singleton h, List.filterMap_cons, setting_self]
  rfl

end Okm6ullOta.CommandLines
