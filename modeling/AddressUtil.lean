import AddressUtil.Basic
import AddressUtil.Sha256
import AddressUtil.Base58
import AddressUtil.ConvertBits
import AddressUtil.PolyMod
import AddressUtil.CashEncode
import AddressUtil.CashDecode
import AddressUtil.Chaincfg
import AddressUtil.DecodeAddress
import AddressUtil.Bch
import AddressUtil.Chains
import AddressUtil.Eth
import AddressUtil.ChaincfgHash
