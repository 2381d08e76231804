import VersionDrift.Toml.Error
import VersionDrift.Decimal.Natural

/-!
# Why a settings file is refused

Either its text is no TOML, or it does not hold what is expected of it.
-/

set_option autoImplicit false

namespace VersionDrift

inductive SettingsFault where
  | unreadable (error : Toml.Error)
  | unknownField (name : Text) (expected : List Text)
  | invalidType (found : Text) (expected : Text)
  | tooShort (length : Nat) (expected : Text) (wanted : Nat)
  | numberTooLarge
deriving DecidableEq, Repr

namespace SettingsFault

def quoted (name : Text) : Text := '\x60' :: name ++ ['\x60']

def alternatives (names : List Text) : Text := Text.joined " or ".toList (names.map quoted)

def message : SettingsFault → Text
  | unreadable e => e.message.toList
  | unknownField name expected =>
    "unknown field ".toList ++ quoted name ++ ", expected ".toList ++ alternatives expected
  | invalidType found expected =>
    "invalid type: ".toList ++ found ++ ", expected ".toList ++ expected
  | tooShort length expected wanted =>
    "invalid length ".toList ++ Decimal.ofNat length ++ ", expected ".toList ++ expected ++
      " with ".toList ++ Decimal.ofNat wanted ++
      (if wanted = 1 then " element".toList else " elements".toList)
  | numberTooLarge => "a number is too large".toList

end SettingsFault
end VersionDrift
