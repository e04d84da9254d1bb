/-!
Addresses of accounts.
-/

namespace BinMarket

abbrev PublicKey := String

def PublicKey.unset : PublicKey := "11111111111111111111111111111111"

end BinMarket
