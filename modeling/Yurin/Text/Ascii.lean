/-!
# ASCII punctuation

Names for the bytes that have a meaning in path names, patterns and settings.
-/

namespace Yurin.Ascii

/-- The double quote. -/
@[match_pattern] abbrev quote : UInt8 := 34

/-- The number sign. -/
@[match_pattern] abbrev hash : UInt8 := 35

/-- The percent sign. -/
@[match_pattern] abbrev percent : UInt8 := 37

/-- The apostrophe. -/
@[match_pattern] abbrev apostrophe : UInt8 := 39

/-- The opening parenthesis. -/
@[match_pattern] abbrev leftRound : UInt8 := 40

/-- The closing parenthesis. -/
@[match_pattern] abbrev rightRound : UInt8 := 41

/-- The asterisk. -/
@[match_pattern] abbrev star : UInt8 := 42

/-- The plus sign. -/
@[match_pattern] abbrev plus : UInt8 := 43

/-- The comma. -/
@[match_pattern] abbrev comma : UInt8 := 44

/-- The hyphen, which is also the minus sign. -/
@[match_pattern] abbrev hyphen : UInt8 := 45

/-- The period. -/
@[match_pattern] abbrev period : UInt8 := 46

/-- The slash. -/
@[match_pattern] abbrev slash : UInt8 := 47

/-- The digit zero. -/
@[match_pattern] abbrev zero : UInt8 := 48

/-- The colon. -/
@[match_pattern] abbrev colon : UInt8 := 58

/-- The semicolon. -/
@[match_pattern] abbrev semicolon : UInt8 := 59

/-- The equals sign. -/
@[match_pattern] abbrev equals : UInt8 := 61

/-- The question mark. -/
@[match_pattern] abbrev question : UInt8 := 63

/-- The exclamation mark. -/
@[match_pattern] abbrev bang : UInt8 := 33

/-- The opening square bracket. -/
@[match_pattern] abbrev leftSquare : UInt8 := 91

/-- The backslash. -/
@[match_pattern] abbrev backslash : UInt8 := 92

/-- The closing square bracket. -/
@[match_pattern] abbrev rightSquare : UInt8 := 93

/-- The circumflex. -/
@[match_pattern] abbrev caret : UInt8 := 94

/-- The underscore. -/
@[match_pattern] abbrev underscore : UInt8 := 95

/-- The grave accent, which is also a quote. -/
@[match_pattern] abbrev backquote : UInt8 := 96

/-- The opening brace. -/
@[match_pattern] abbrev leftBrace : UInt8 := 123

/-- The closing brace. -/
@[match_pattern] abbrev rightBrace : UInt8 := 125

end Yurin.Ascii
